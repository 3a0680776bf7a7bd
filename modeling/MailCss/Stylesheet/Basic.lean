import MailCss.Text.Location

/-!
# Style sheets

A style sheet as a tree of rules, at-rules, declarations and comments. Selectors, parameters and
declarations are kept as text.
-/

namespace MailCss

open Text (Location)

/-- A node of a style sheet. -/
inductive Node where
  /-- A style rule. -/
  | rule (selector : String) (nodes : List Node) (location : Location)
  /-- An at-rule: with a block, or a statement without one. -/
  | atRule (name params : String) (block : Option (List Node)) (location : Location)
  | declaration (property value : String)
  /-- A comment, by the text between its delimiters. -/
  | comment (text : String)
  deriving Repr, Inhabited

namespace Node

/-- Whether a node is written with a block. -/
def isBlock : Node → Bool
  | .rule .. => true
  | .atRule _ _ block _ => block.isSome
  | .declaration .. | .comment _ => false

/-- Whether a node is a comment. -/
def isComment : Node → Bool
  | .comment _ => true
  | _ => false

end Node

/-- A style sheet: its nodes on the outermost level. -/
structure Stylesheet where
  nodes : List Node
  deriving Repr, Inhabited

end MailCss
