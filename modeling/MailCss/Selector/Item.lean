import MailCss.Css.TokenTree
import MailCss.Selector.Failure
import MailCss.Selector.Order

/-!
# Items

What a selector is read from: token trees, each with the way in which its group is read as part
of a selector. Reading goes along a list of items. Its place in the text is the list of items
that are left, and the number of characters in them is what a failure reports.
-/

namespace MailCss

open Css (Token TokenTree)

/-- What has been read of a selector, as far as it restricts what may follow, and what the
selector's surroundings rule out. -/
structure Flags where
  afterSlotted : Bool := false
  afterPart : Bool := false
  /-- After a known pseudo-element. -/
  afterElement : Bool := false
  /-- After a pseudo-element of a scroll bar. -/
  afterScrollbar : Bool := false
  /-- After a pseudo-element of a view transition. -/
  afterTransition : Bool := false
  noPseudoElements : Bool := false
  noCombinators : Bool := false
  deriving DecidableEq, Repr, Inhabited

namespace Flags

/-- Whether any pseudo-element that is known has been read. -/
def afterAny (f : Flags) : Bool := f.afterSlotted || f.afterPart || f.afterElement

/-- All flags of both. -/
def join (f g : Flags) : Flags :=
  { afterSlotted := f.afterSlotted || g.afterSlotted
    afterPart := f.afterPart || g.afterPart
    afterElement := f.afterElement || g.afterElement
    afterScrollbar := f.afterScrollbar || g.afterScrollbar
    afterTransition := f.afterTransition || g.afterTransition
    noPseudoElements := f.noPseudoElements || g.noPseudoElements
    noCombinators := f.noCombinators || g.noCombinators }

/-- The flags for a list of selectors without pseudo-elements. -/
def inList (f : Flags) : Flags := { f with noPseudoElements := true }

/-- The flags for a compound without pseudo-elements. -/
def inCompound (f : Flags) : Flags := { f with noPseudoElements := true, noCombinators := true }

end Flags

/-- A simple selector that has been read: its component, with the combinator in front of a
pseudo-element, and the flags that it raises. -/
structure Simple where
  components : List Component
  raised : Flags := {}
  deriving Repr, Inhabited

/-- What a group is read as. -/
inductive Entry where
  | pseudoClass
  | pseudoElement
  | attribute
  deriving DecidableEq, Repr

/-- A token tree, and how its group is read. A failure inside counts the characters left up to the
closing bracket. -/
structure Item where
  tree : TokenTree
  enter : Entry → Flags → Except Failure Simple

namespace Item

/-- The token that an item begins with. -/
def token (t : Item) : Token := t.tree.token

/-- Whether an item is a comment. -/
def isComment (t : Item) : Bool := t.token.isComment

/-- Whether an item is a comment or white space. -/
def isSkipped (t : Item) : Bool := t.token.isSkipped

/-- The number of characters of an item. -/
def size (t : Item) : Nat := t.tree.size

/-- The number of characters of an item behind its first token. -/
def tailSize (t : Item) : Nat := t.size - t.tree.head.source.length

/-- The number of characters of the closing bracket. -/
def closerSize (t : Item) : Nat :=
  match t.tree with
  | .leaf _ => 0
  | .group _ _ closer => closer.length

end Item

/-- The number of characters left. -/
def left (items : List Item) : Nat := items.foldr (fun t n => t.size + n) 0

/-- The place right after the first token of `t`, before `items`. -/
def leftAfter (t : Item) (items : List Item) : Nat := t.tailSize + left items

/-- The items without comments in front. -/
def dropComments (items : List Item) : List Item := items.dropWhile Item.isComment

/-- The items without comments and white space in front. -/
def dropSkipped (items : List Item) : List Item := items.dropWhile Item.isSkipped

/-- A refusal with so many characters left. -/
def refuse {α : Type} (cause : Cause) (left : Nat) : Except Failure α := .error ⟨cause, left⟩

/-- Accepts what was read if nothing but white space and comments is left. -/
def exhausted {α : Type} (r : α × List Item) : Except Failure α :=
  match dropSkipped r.2 with
  | [] => .ok r.1
  | t :: _ => refuse (.unexpectedToken t.token) (left r.2)

/-- Reads the group of `t`, which has `items` behind it. -/
def enterGroup (entry : Entry) (flags : Flags) (t : Item) (items : List Item) :
    Except Failure Simple :=
  (t.enter entry flags).mapError (Failure.before (t.closerSize + left items))

/-- The items between commas. -/
def segments (items : List Item) : List (List Item) :=
  Sequence.splitWhere (fun t => t.token == .comma) items

/-- The number of characters left in segments behind a comma each. -/
def leftIn (segs : List (List Item)) : Nat := segs.foldr (fun s n => 1 + left s + n) 0

/-- Reads every segment, or fails as the first one that fails. -/
def readSegments {α : Type} (read : List Item → Except Failure α) :
    List (List Item) → Except Failure (List α)
  | [] => .ok []
  | s :: ss =>
    match read s with
    | .error f => .error (f.before (leftIn ss))
    | .ok a => (readSegments read ss).map (a :: ·)

/-- Reads the segments that can be read and leaves out the others. -/
def readForgiving {α : Type} (read : List Item → Except Failure α) (segs : List (List Item)) :
    List α :=
  segs.filterMap fun s => (read s).toOption

/-! ## Names -/

/-- Reads an identifier. -/
def readIdent (items : List Item) : Except Failure (String × List Item) :=
  match dropSkipped items with
  | [] => refuse .endOfInput 0
  | t :: r =>
    match t.token with
    | .ident name => .ok (name, r)
    | other => refuse (.unexpectedToken other) (left items)

/-- Reads an identifier or a string. -/
def readIdentOrString (items : List Item) : Except Failure (String × List Item) :=
  match dropSkipped items with
  | [] => refuse .endOfInput 0
  | t :: r =>
    match t.token with
    | .ident name | .string name => .ok (name, r)
    | other => refuse (.unexpectedToken other) (left items)

/-- Reads one or more identifiers, to the end; `fuel` bounds their number. -/
def readIdents : Nat → List Item → Except Failure (List String)
  | 0, _ => .ok []
  | fuel + 1, items => do
    let (name, r) ← readIdent items
    match dropSkipped r with
    | [] => return [name]
    | _ => return name :: (← readIdents fuel r)

/-- Reads between commas, each part behind the white space in front of it and to its end. -/
def readCommaSeparated {α : Type} (read : List Item → Except Failure (α × List Item))
    (items : List Item) : Except Failure (List α) :=
  readSegments (fun s => do exhausted (← read (dropSkipped s))) (segments items)

end MailCss
