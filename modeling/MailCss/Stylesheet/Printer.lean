import MailCss.Stylesheet.Basic

/-!
# Writing style sheets

A style sheet is written line by line, with two spaces for each level of nesting: one line for a
declaration, a comment or an at-rule without a block, and for a block its head, the lines of its
nodes and the closing brace. A blank line separates a block from what is next to it, but not from
a comment right before it.
-/

namespace MailCss

/-- A line: how deep it is, and what is on it. -/
structure Line where
  depth : Nat
  content : List Char

namespace Line

/-- The spaces in front of a line. -/
def indent (depth : Nat) : List Char := List.replicate (2 * depth) ' '

/-- A line with its line break. -/
def text (l : Line) : List Char := indent l.depth ++ (l.content ++ ['\n'])

/-- A line with nothing on it. -/
def blank : Line := ⟨0, []⟩

end Line

namespace Node

/-- Whether a blank line goes between two neighbours. -/
def needsGap (previous next : Node) : Bool :=
  previous.isBlock || (next.isBlock && !previous.isComment)

/-- The blank line between a node and the one before it, if any. -/
def gap (previous : Option Node) (next : Node) : List Line :=
  match previous with
  | none => []
  | some p => if needsGap p next then [.blank] else []

/-- An at-rule's name and parameters. -/
def atRuleHead (name params : String) : List Char :=
  '@' :: (name.toList ++ if params = "" then [] else ' ' :: params.toList)

mutual

/-- The lines of a node at a depth. -/
def lines (depth : Nat) : Node → List Line
  | .rule selector nodes _ =>
    ⟨depth, selector.toList ++ " \x7b".toList⟩ ::
      (linesAll (depth + 1) none nodes ++ [⟨depth, ['\x7d']⟩])
  | .atRule name params (some nodes) _ =>
    ⟨depth, atRuleHead name params ++ " \x7b".toList⟩ ::
      (linesAll (depth + 1) none nodes ++ [⟨depth, ['\x7d']⟩])
  | .atRule name params none _ => [⟨depth, atRuleHead name params ++ [';']⟩]
  | .declaration property value =>
    [⟨depth, property.toList ++ (": ".toList ++ (value.toList ++ [';']))⟩]
  | .comment t => [⟨depth, "/* ".toList ++ (t.toList ++ " */".toList)⟩]

/-- The lines of siblings at a depth; `previous` is the node before them. -/
def linesAll (depth : Nat) (previous : Option Node) : List Node → List Line
  | [] => []
  | n :: ns => gap previous n ++ (lines depth n ++ linesAll depth (some n) ns)

end

end Node

/-- The text of a style sheet. -/
def Stylesheet.text (s : Stylesheet) : List Char := (Node.linesAll 0 none s.nodes).flatMap Line.text

/-- A style sheet as CSS. -/
def Stylesheet.print (s : Stylesheet) : String := String.ofList s.text

end MailCss
