import MailCss.Css.Escape
import MailCss.Css.Token

/-!
# Reading tokens

Cutting a text into lexemes. `scan` reads the lexeme at the front of a text: it says which token
it is and which text it takes. Reading never fails: a text that is no token of any other kind is a
delimiter of one character, and strings, comments and urls that are not closed end with the text.

That no text is lost on the way is shown in `MailCss.Css.Lossless`.
-/

namespace MailCss.Css

open Decimal (Numeral)

/-! ## Numbers -/

/-- A sign, if the text begins with one, and the rest. -/
def spanSign : List Char → List Char × List Char
  | [] => ([], [])
  | c :: r => if c = '+' ∨ c = '-' then ([c], r) else ([], c :: r)

/-- The digits at the front of a text, and the rest. -/
def spanDigits (s : List Char) : List Char × List Char :=
  (s.takeWhile Char.isDigit, s.dropWhile Char.isDigit)

/-- A point with digits behind it, if the text begins with that, and the rest. -/
def spanFraction : List Char → List Char × List Char
  | [] => ([], [])
  | c :: r =>
    let (ds, rest) := spanDigits r
    if c = '.' ∧ ds ≠ [] then (c :: ds, rest) else ([], c :: r)

/-- An exponent with at least one digit, if the text begins with one, and the rest. -/
def spanExponent : List Char → List Char × List Char
  | [] => ([], [])
  | c :: r =>
    let (sign, r') := spanSign r
    let (ds, rest) := spanDigits r'
    if (c = 'e' ∨ c = 'E') ∧ ds ≠ [] then (c :: (sign ++ ds), rest) else ([], c :: r)

/-- Whether a text begins with a number. -/
def startsNumber (s : List Char) : Bool :=
  let (_, r) := spanSign s
  let (ds, r') := spanDigits r
  ds ≠ [] || (spanFraction r').1 ≠ []

/-- The numeral made of a sign, digits, a fraction and an exponent. -/
def numeralOf (sign whole fraction exponent : List Char) : Numeral :=
  let (mark, power) := spanSign (exponent.drop 1)
  let magnitude : Int := Decimal.natOfDigits power
  { signed := !sign.isEmpty
    negative := sign == ['-']
    whole
    fraction := fraction.drop 1
    exponent := if mark = ['-'] then -magnitude else magnitude
    integral := fraction.isEmpty && exponent.isEmpty }

/-- Reads a number, a percentage or a dimension. -/
def scanNumeric (s : List Char) : Lexeme :=
  let (sign, s₁) := spanSign s
  let (whole, s₂) := spanDigits s₁
  let (fraction, s₃) := spanFraction s₂
  let (exponent, s₄) := spanExponent s₃
  let n := numeralOf sign whole fraction exponent
  let text := sign ++ whole ++ fraction ++ exponent
  if s₄.head? = some '%' then ⟨.percentage n, text ++ ['%']⟩
  else if startsIdent s₄ then
    let (unit, _) := spanName s₄
    ⟨.dimension n (String.ofList (unescape unit)), text ++ unit⟩
  else ⟨.number n, text⟩

/-! ## Comments, strings and urls -/

/-- The text up to the end of a comment, and whether the comment is closed. -/
def spanComment : List Char → List Char × Bool
  | [] => ([], false)
  | '*' :: '/' :: _ => ([], true)
  | c :: r =>
    let (text, closed) := spanComment r
    (c :: text, closed)

/-- Reads a comment behind its two opening characters. -/
def scanComment (r : List Char) : Lexeme :=
  let (text, closed) := spanComment r
  ⟨.comment (String.ofList text), ['/', '*'] ++ text ++ if closed then ['*', '/'] else []⟩

/-- Reads a string behind its opening quote. A line break ends it and is not part of it. -/
def scanString (quote : Char) (r : List Char) : Lexeme :=
  let (body, rest) := escapedSpan (fun c _ => c = quote || isNewline c) .outside r
  let text := String.ofList (unescapeString body)
  match rest with
  | [] => ⟨.string text, quote :: body⟩
  | c :: _ =>
    if c = quote then ⟨.string text, quote :: body ++ [quote]⟩ else ⟨.badString text, quote :: body⟩

/-- The characters that break an unquoted url. -/
def breaksUrl (c : Char) : Bool :=
  c = '"' || c = '\'' || c = '(' || (1 ≤ c.toNat && c.toNat ≤ 8) || c.toNat = 0xb ||
    (0xe ≤ c.toNat && c.toNat ≤ 0x1f) || c.toNat = 0x7f

/-- Where the body of an unquoted url ends. -/
def endsUrl (c : Char) (r : List Char) : Bool :=
  isSpace c || c = ')' || breaksUrl c || (c = '\\' && startsLine r)

/-- The rest of a broken url up to its closing bracket; a backslash keeps a bracket or another
backslash from counting. -/
def spanBadUrl (escaped : Bool) : List Char → List Char × List Char
  | [] => ([], [])
  | c :: r =>
    if c = ')' ∧ escaped = false then ([], c :: r)
    else
      let (a, b) := spanBadUrl (c = '\\' && !escaped) r
      (c :: a, b)

/-- Reads an unquoted url behind `opener`, which ends with the opening bracket. -/
def scanUrl (opener r : List Char) : Lexeme :=
  let lead := r.takeWhile isSpace
  let (body, r₁) := escapedSpan endsUrl .outside (r.dropWhile isSpace)
  let tail := r₁.takeWhile isSpace
  let url : Token := .url (String.ofList (unescape body))
  match r₁.dropWhile isSpace with
  | [] => ⟨url, opener ++ lead ++ body ++ tail⟩
  | c :: r₂ =>
    if c = ')' then ⟨url, opener ++ lead ++ body ++ tail ++ [c]⟩
    else
      let (junk, r₃) := spanBadUrl false r₂
      let text := body ++ tail ++ c :: junk
      ⟨.badUrl (String.ofList text), opener ++ lead ++ text ++ r₃.take 1⟩

/-! ## Names -/

/-- Whether a name is `url`, in any case. -/
def isUrlName (name : List Char) : Bool := name.map Char.toLower = ['u', 'r', 'l']

/-- Reads an identifier, a function or an unquoted url. -/
def scanIdentLike (s : List Char) : Lexeme :=
  let (text, rest) := spanName s
  let name := unescape text
  match rest with
  | '(' :: r =>
    let opener := text ++ ['(']
    match isUrlName name, r.dropWhile isSpace with
    | true, '"' :: _ | true, '\'' :: _ | false, _ => ⟨.function (String.ofList name), opener⟩
    | true, _ => scanUrl opener r
  | _ => ⟨.ident (String.ofList name), text⟩

/-- Reads what follows a number sign. -/
def scanHash (r : List Char) : Lexeme :=
  let (text, _) := spanName r
  let name := String.ofList (unescape text)
  if startsIdent r then ⟨.idHash name, '#' :: text⟩
  else if r.head?.any (fun c => c.isDigit || c = '-') then ⟨.hash name, '#' :: text⟩
  else ⟨.delim '#', ['#']⟩

/-- Reads what follows an at sign. -/
def scanAt (r : List Char) : Lexeme :=
  if startsIdent r then
    let (text, _) := spanName r
    ⟨.atKeyword (String.ofList (unescape text)), '@' :: text⟩
  else ⟨.delim '@', ['@']⟩

/-! ## Punctuation -/

/-- The token of two characters that ends with an equals sign, by its first character. -/
def matcher? (c : Char) : Option Token :=
  if c = '~' then some .includeMatch
  else if c = '|' then some .dashMatch
  else if c = '^' then some .prefixMatch
  else if c = '$' then some .suffixMatch
  else if c = '*' then some .substringMatch
  else none

/-- The token of a single character. -/
def single (c : Char) : Token :=
  if c = ':' then .colon
  else if c = ';' then .semicolon
  else if c = ',' then .comma
  else if c = '(' then .parenOpen
  else if c = '[' then .squareOpen
  else if c = '\x7b' then .curlyOpen
  else if c = ')' then .parenClose
  else if c = ']' then .squareClose
  else if c = '\x7d' then .curlyClose
  else .delim c

/-- Reads punctuation. -/
def scanPunctuation (c : Char) (r : List Char) : Lexeme :=
  match matcher? c, r with
  | some t, '=' :: _ => ⟨t, [c, '=']⟩
  | _, _ => ⟨single c, [c]⟩

/-! ## Lexemes -/

/-- Reads the lexeme at the front of the text `c :: r`. -/
def scan (c : Char) (r : List Char) : Lexeme :=
  let s := c :: r
  if isSpace c then
    let text := s.takeWhile isSpace
    ⟨.whitespace (String.ofList text), text⟩
  else if c = '/' ∧ r.head? = some '*' then scanComment (r.drop 1)
  else if c = '"' ∨ c = '\'' then scanString c r
  else if c = '#' then scanHash r
  else if c = '@' then scanAt r
  else if startsNumber s then scanNumeric s
  else if s.take 3 = ['-', '-', '>'] then ⟨.commentClose, ['-', '-', '>']⟩
  else if s.take 4 = ['<', '!', '-', '-'] then ⟨.commentOpen, ['<', '!', '-', '-']⟩
  else if startsIdent s then scanIdentLike s
  else scanPunctuation c r

/-- The lexemes of a text whose first `skip` characters belong to the lexeme before it. -/
def lexemesAfter : Nat → List Char → List Lexeme
  | _, [] => []
  | skip + 1, _ :: r => lexemesAfter skip r
  | 0, c :: r =>
    let x := scan c r
    x :: lexemesAfter (x.source.length - 1) r

/-- The lexemes of a text. -/
def lexemes (s : List Char) : List Lexeme := lexemesAfter 0 s

end MailCss.Css
