import MailCss.Css.Lexer

/-!
# Token trees

The lexemes of a text with its bracketed groups nested. A group is opened by a bracket or a
function token and reaches to the closing bracket of its own kind or, failing that, to the end of
the text; any other closing bracket inside it is an ordinary token.

The trees are built by feeding lexemes one by one to a `Builder`, which keeps the groups that are
still open.

Main statements: `TokenTree.sourceAll_append` (the text of trees in a row) and `TokenTree.size_eq`
(the size of a tree is the length of its text).
-/

namespace MailCss.Css

/-- A lexeme, or a group: its opening lexeme, what is inside, and the text of its closing
bracket, which is empty where the text ends first. -/
inductive TokenTree where
  | leaf (x : Lexeme)
  | group (x : Lexeme) (inner : List TokenTree) (closer : List Char)
  deriving Repr, Inhabited

namespace TokenTree

/-- The lexeme that a tree begins with. -/
def head : TokenTree → Lexeme
  | .leaf x => x
  | .group x _ _ => x

/-- The token that a tree begins with. -/
def token (t : TokenTree) : Token := t.head.token

mutual

/-- The text of a tree. -/
def source : TokenTree → List Char
  | .leaf x => x.source
  | .group x inner closer => x.source ++ (sourceAll inner ++ closer)

/-- The text of several trees. -/
def sourceAll : List TokenTree → List Char
  | [] => []
  | t :: ts => t.source ++ sourceAll ts

end

mutual

/-- The number of characters of a tree. -/
def size : TokenTree → Nat
  | .leaf x => x.source.length
  | .group x inner closer => x.source.length + (sizeAll inner + closer.length)

/-- The number of characters of several trees. -/
def sizeAll : List TokenTree → Nat
  | [] => 0
  | t :: ts => t.size + sizeAll ts

end

mutual

/-- The size of a tree is the length of its text. -/
theorem size_eq : ∀ t : TokenTree, t.size = t.source.length
  | .leaf x => by simp [size, source]
  | .group x inner closer => by simp [size, source, sizeAll_eq inner]

theorem sizeAll_eq : ∀ ts : List TokenTree, sizeAll ts = (sourceAll ts).length
  | [] => by simp [sizeAll, sourceAll]
  | t :: ts => by simp [sizeAll, sourceAll, size_eq t, sizeAll_eq ts]

end

@[simp] theorem sourceAll_append (ts us : List TokenTree) :
    sourceAll (ts ++ us) = sourceAll ts ++ sourceAll us := by
  induction ts with
  | nil => simp [sourceAll]
  | cons t ts ih => simp [sourceAll, ih]

end TokenTree

/-- A group that is still open: its opening lexeme, and the trees before it on its level, the
last one first. -/
structure Frame where
  opener : Lexeme
  before : List TokenTree

/-- Trees in the making: the open groups, the innermost first, and the trees read so far in the
innermost of them, the last one first. -/
structure Builder where
  frames : List Frame := []
  done : List TokenTree := []

namespace Builder

/-- The innermost open group becomes a tree, with the given text for its closing bracket. -/
def close (b : Builder) (closer : List Char) : Builder :=
  match b.frames with
  | [] => b
  | f :: fs => { frames := fs, done := .group f.opener b.done.reverse closer :: f.before }

/-- Whether a token closes the innermost open group. -/
def closes (b : Builder) (t : Token) : Bool :=
  match b.frames with
  | [] => false
  | f :: _ => f.opener.token.closer? == some t

/-- Reads one more lexeme. -/
def feed (b : Builder) (x : Lexeme) : Builder :=
  if b.closes x.token then b.close x.source
  else if x.token.closer?.isSome then { frames := ⟨x, b.done⟩ :: b.frames, done := [] }
  else { b with done := .leaf x :: b.done }

/-- The trees on the outermost level once `frames` are closed without closing brackets around
`done`. -/
def finishWith (done : List TokenTree) : List Frame → List TokenTree
  | [] => done.reverse
  | f :: fs => finishWith (.group f.opener done.reverse [] :: f.before) fs

/-- The trees, with every open group ended by the end of the text. -/
def finish (b : Builder) : List TokenTree := finishWith b.done b.frames

end Builder

/-- The token trees of lexemes. -/
def TokenTree.ofLexemes (xs : List Lexeme) : List TokenTree :=
  (xs.foldl Builder.feed {}).finish

/-- The token trees of a text. -/
def TokenTree.ofText (s : List Char) : List TokenTree := TokenTree.ofLexemes (lexemes s)

end MailCss.Css
