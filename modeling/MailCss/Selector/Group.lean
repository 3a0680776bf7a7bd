import MailCss.Selector.Arguments
import MailCss.Selector.Compound
import MailCss.Selector.Formula

/-!
# Groups

Reading the bracketed groups inside selectors: attributes, pseudo-classes and pseudo-elements with
arguments. `Item.ofTree` gives every token tree the way in which its group is read, from the inside
out; so no function here calls itself on the contents of a group.

The lists in `:is()`, `:where()`, `:has()` and behind `of` are forgiving; all others are strict.
-/

namespace MailCss

open Css (Token TokenTree)

/-- Reads the list of a pseudo-class that takes one. -/
def readMatching (flags : Flags) (m : Matching) (items : List Item) : Except Failure Component :=
  match m with
  | .not =>
    (readSegments (readMatchOrder flags.inList) (segments items)).map (Component.matching .not)
  | .has => .ok (.matching .has (readForgiving (readRelative flags) (segments items)))
  | m => .ok (.matching m (readForgivingList flags.inList items))

/-- Reads a formula and, where one may follow, a list behind `of`. -/
def readNth (flags : Flags) (c : Counted) (items : List Item) : Except Failure Component := do
  let (f, r) ← AnPlusB.read items
  let plain := exhausted (Component.nth c f, r)
  if c = .child ∨ c = .lastChild then
    match dropSkipped r with
    | [] => plain
    | t :: r' =>
      match t.token with
      | .ident name =>
        if Names.lower name = "of" then return .nthOf c f (readForgivingList flags.inList r')
        else plain
      | _ => plain
  else plain

/-- Reads the arguments of a pseudo-class that holds no selectors. -/
def readPseudoClassArguments (name : String) (items : List Item) : Except Failure Component :=
  let l := Names.lower name
  match l with
  | "lang" => (readCommaSeparated readIdentOrString items).map (.pseudoClass l <| .names ·)
  | "dir" => (readOne readDirection items).map (.pseudoClass l)
  | "state" => (readOne readCustomIdent items).map (.pseudoClass l)
  | "active-view-transition-type" =>
    (readCommaSeparated readCustomIdent items).map (.pseudoClass l <| .names ·)
  | _ => (readArguments items).map (.pseudoClass name)

/-- Reads the arguments of a pseudo-class. -/
def readPseudoClass (flags : Flags) (name : String) (items : List Item) :
    Except Failure Component :=
  let l := Names.lower name
  let unlessAfter (x : Except Failure Component) :=
    if flags.afterAny then refuse .invalidState (left items) else x
  match Names.formulas.lookup l, Names.matching.lookup l with
  | some c, _ => unlessAfter (readNth flags c items)
  | none, some m => readMatching flags m items
  | none, none =>
    unlessAfter <|
      if l = "host" then (readMatchOrder flags.inCompound items).map Component.host
      else readPseudoClassArguments name items

/-- Reads the arguments of a pseudo-element. -/
def readPseudoElement (flags : Flags) (name : String) (items : List Item) :
    Except Failure Simple :=
  let l := Names.lower name
  let unlessAfter (x : Except Failure Simple) :=
    if flags.afterAny then refuse .invalidState (left items) else x
  let known (raised : Flags) (x : Except Failure Component) :=
    x.map fun c => knownElement c raised
  match l with
  | "part" =>
    unlessAfter <| (readIdents (items.length + 1) items).map fun ns =>
      { components := [.combinator .toPart, .pseudoElement l (.words ns)],
        raised := { afterPart := true } }
  | "slotted" =>
    unlessAfter <| (readMatchOrder flags.inCompound items).map fun cs =>
      { components := [.combinator .toSlotted, .slotted cs], raised := { afterSlotted := true } }
  | "cue" => known {} ((readMatchOrder {} items).map (.cue false))
  | "cue-region" => known {} ((readMatchOrder {} items).map (.cue true))
  | "highlight" => known {} ((readOne readCustomIdent items).map (.pseudoElement l))
  | "picker" => known {} ((readOne readIdent items).map (.pseudoElement l))
  | _ =>
    if l ∈ Names.transitions then
      known { afterTransition := true } ((readTransition items).map (.pseudoElement l))
    else (readArguments items).map fun args => { components := [.pseudoElement name args] }

/-- Reads the group that a token opens. -/
def readGroup (token : Token) (inner : List Item) (entry : Entry) (flags : Flags) :
    Except Failure Simple :=
  match entry, token with
  | .attribute, _ => (Attribute.read inner).map fun a => { components := [.attribute a] }
  | .pseudoClass, .function name =>
    (readPseudoClass flags name inner).map fun c => { components := [c] }
  | .pseudoElement, .function name => readPseudoElement flags name inner
  | _, token => refuse (.unexpectedToken token) (left inner)

mutual

/-- The item of a tree. -/
def Item.ofTree : TokenTree → Item
  | .leaf x => ⟨.leaf x, fun entry flags => readGroup x.token [] entry flags⟩
  | .group x inner closer => ⟨.group x inner closer, readGroup x.token (Item.ofTrees inner)⟩

/-- The items of trees. -/
def Item.ofTrees : List TokenTree → List Item
  | [] => []
  | t :: ts => Item.ofTree t :: Item.ofTrees ts

end

/-- Reads a list of selectors, each into match order. -/
def readSelectorList (items : List Item) : Except Failure (List (List Component)) :=
  readSegments (readMatchOrder {}) (segments items)

end MailCss
