import MailCss.Css.TokenTree
import MailCss.Sequence.Split
import MailCss.Stylesheet.Basic
import MailCss.Text.Blank

/-!
# Reading style sheets

Reading goes once through the token trees of a text and never fails. Between nodes, white space
and the comment delimiters of HTML are skipped and a comment is a node. An at-keyword begins an
at-rule and any other token begins a prelude; either goes on to the next semicolon, curly group
or end of its block. A curly group is the block of the prelude or at-rule before it, and is read
like the text of a style sheet.

A prelude that ends in another bracketed group is kept only up to the opening bracket of that
group. A prelude without a block is a declaration if it has a colon with a property before it; what
is neither is skipped, with a note of it.
-/

namespace MailCss

open Text (Location Mark)
open Css (TokenTree Token)

/-- Text that was skipped because it forms no node. -/
structure Skipped where
  text : String
  location : Location
  deriving DecidableEq, Repr

/-- What reading found. -/
structure Reading where
  nodes : List Node := []
  skipped : List Skipped := []
  deriving Repr, Inhabited

namespace Reading

/-- What is found first, and then what is found after it. -/
def append (a b : Reading) : Reading := ⟨a.nodes ++ b.nodes, a.skipped ++ b.skipped⟩

instance : Append Reading := ⟨append⟩

@[simp] theorem nodes_append (a b : Reading) : (a ++ b).nodes = a.nodes ++ b.nodes := rfl

@[simp] theorem skipped_append (a b : Reading) : (a ++ b).skipped = a.skipped ++ b.skipped := rfl

/-- One node. -/
def node (n : Node) : Reading := { nodes := [n] }

end Reading

/-! ## Preludes and parameters -/

/-- The text of a prelude. A bracketed group at its end counts only with its opening bracket. -/
def preludeText : List TokenTree → List Char
  | [] => []
  | [t] => t.head.source
  | t :: ts => t.source ++ preludeText ts

/-- The text of an at-rule's parameters: comments are left out, and white space becomes one space
unless the text in front of it ends with a space, which is what `spaced` says. -/
def paramsFrom (spaced : Bool) : List TokenTree → List Char
  | [] => []
  | t :: ts =>
    match t.token with
    | .comment _ => paramsFrom spaced ts
    | .whitespace _ => if spaced then paramsFrom true ts else ' ' :: paramsFrom true ts
    | _ =>
      let text := t.source
      text ++ paramsFrom (text.getLast? = some ' ') ts

/-- The parameters of an at-rule. -/
def paramsText (ts : List TokenTree) : String :=
  String.ofList (Text.trim (paramsFrom false ts))

/-- The declaration that a trimmed text makes, if any. -/
def declaration? (text : List Char) : Option Node :=
  match Sequence.cutAt? ':' text with
  | none => none
  | some (property, value) =>
    let property := Text.trim property
    if property = [] then none
    else some (.declaration (String.ofList property) (String.ofList (Text.trim value)))

/-! ## Nodes -/

/-- What has been read of a node: nothing, a prelude, or an at-rule with its name. The trees read
so far are kept with the last one first. -/
inductive Pending where
  | nothing
  | prelude (start : Location) (taken : List TokenTree)
  | atRule (start : Location) (name : String) (taken : List TokenTree)

namespace Pending

/-- What has been read ends without a block. -/
def finish : Pending → Reading
  | .nothing => {}
  | .prelude start taken =>
    let text := Text.trim (preludeText taken.reverse)
    match declaration? text with
    | some n => .node n
    | none => if text = [] then {} else { skipped := [⟨String.ofList text, start⟩] }
  | .atRule start name taken => .node (.atRule name (paramsText taken.reverse) none start)

/-- What has been read ends with a block that begins at `here`. -/
def finishBlock (here : Location) (block : List Node) : Pending → Node
  | .nothing => .rule "" block here
  | .prelude start taken =>
    .rule (String.ofList (Text.trim (preludeText taken.reverse))) block start
  | .atRule start name taken => .atRule name (paramsText taken.reverse) (some block) start

/-- One more tree, which begins at `here` and neither ends a node nor is skipped between nodes. -/
def take (here : Location) (t : TokenTree) : Pending → Pending
  | .nothing =>
    match t.token with
    | .atKeyword name => .atRule here name []
    | _ => .prelude here [t]
  | .prelude start taken => .prelude start (t :: taken)
  | .atRule start name taken => .atRule start name (t :: taken)

end Pending

/-- What a token stands for between nodes, where it does not begin one: a comment is a node, and
white space and the comment delimiters of HTML are nothing. -/
def betweenNodes? : Token → Option Reading
  | .comment text => some (.node (.comment (String.ofList (Text.trim text.toList))))
  | .whitespace _ | .commentOpen | .commentClose => some {}
  | _ => none

mutual

/-- Reads one tree at mark `m`: what it completes, and what is pending after it. -/
def readTree (m : Mark) (p : Pending) : TokenTree → Reading × Pending
  | .group x inner closer =>
    match x.token with
    | .curlyOpen =>
      let block := readTrees (m.advance x.source) .nothing inner
      ({ block with nodes := [p.finishBlock m.location block.nodes] }, .nothing)
    | _ => ({}, p.take m.location (.group x inner closer))
  | .leaf x =>
    match p, betweenNodes? x.token with
    | .nothing, some r => (r, .nothing)
    | _, _ =>
      match x.token with
      | .semicolon => (p.finish, .nothing)
      | _ => ({}, p.take m.location (.leaf x))

/-- Reads the trees of a block or of a whole text, from mark `m` on. -/
def readTrees (m : Mark) (p : Pending) : List TokenTree → Reading
  | [] => p.finish
  | t :: ts =>
    let (r, p') := readTree m p t
    r ++ readTrees (m.advance t.source) p' ts

end

/-- Reads a text. -/
def Reading.ofText (s : List Char) : Reading := readTrees .start .nothing (TokenTree.ofText s)

/-- The style sheet that a text holds. -/
def Stylesheet.parse (css : String) : Stylesheet := ⟨(Reading.ofText css.toList).nodes⟩

end MailCss
