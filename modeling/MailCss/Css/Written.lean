import MailCss.Css.Token
import MailCss.Decimal.Compact
import MailCss.Decimal.Layout

/-!
# Writing tokens

Names, strings, urls, numbers and whole tokens as CSS text that reads back as the same token.
Names are escaped where they need to be, and a control character by its code and a space.
-/

namespace MailCss.Css.Written

open Decimal (Numeral Single Layout compact)

/-- A character by its code. -/
def codeEscape (c : Char) : List Char := '\\' :: Nat.toDigits 16 c.toNat ++ [' ']

/-- Whether a character is an ASCII control. -/
def isControl (c : Char) : Bool := c.toNat < 0x20 || c.toNat = 0x7f

/-- Whether a character stands in a name unescaped. -/
def isPlain (c : Char) : Bool := c.isAlphanum || c = '_' || c = '-' || 0x80 ≤ c.toNat

/-- A character of a name behind its beginning. -/
def nameChar (c : Char) : List Char :=
  if isPlain c then [c]
  else if c = '\x00' then ['\uFFFD']
  else if isControl c then codeEscape c
  else ['\\', c]

/-- A name that need not be an identifier. -/
def name (s : List Char) : List Char := s.flatMap nameChar

/-- A name whose first character must not be read as part of a number. -/
def identTail : List Char → List Char
  | [] => []
  | c :: r => if c.isDigit then codeEscape c ++ name r else name (c :: r)

/-- An identifier. -/
def ident : List Char → List Char
  | ['-'] => ['\\', '-']
  | '-' :: '-' :: r => '-' :: '-' :: name r
  | '-' :: r => '-' :: identTail r
  | s => identTail s

/-- A character between double quotes. -/
def stringChar (c : Char) : List Char :=
  if c = '"' ∨ c = '\\' then ['\\', c]
  else if c = '\x00' then ['\uFFFD']
  else if isControl c then codeEscape c
  else [c]

/-- A string in double quotes. -/
def string (s : List Char) : List Char := '"' :: s.flatMap stringChar ++ ['"']

/-- A character of an unquoted url. -/
def urlChar (c : Char) : List Char :=
  if isControl c || c = ' ' then codeEscape c
  else if c ∈ ['(', ')', '"', '\'', '\\'] then ['\\', c]
  else [c]

/-- An unquoted url. -/
def url (s : List Char) : List Char := "url(".toList ++ s.flatMap urlChar ++ [')']

/-- Numbers are compact, have at most six significant digits and are positional from `10 ^ -6` up to
`10 ^ 21`. CSS has no word for an infinite number or for none: they are written as `2 ^ 128` and
`3 * 2 ^ 127`, which is how their bits read as a finite number would. -/
def numberLayout : Layout :=
  { least := -5, most := 21, pointZero := false, significant := some 6
    decimal := compact, infinite := "3.40282e38", notANumber := "5.10424e38" }

/-- A number that was not written as an integer. If it is whole it gets a fraction. -/
def nonInteger (x : Single) : List Char :=
  let digits := numberLayout.write x
  digits ++ if x.isWhole && !digits.contains '.' && !digits.contains 'e' then ['.', '0'] else []

/-- A number with the sign and the integer value of the numeral that it comes from. A plus is
kept, and so is the minus of a zero; integers have all their digits. -/
def number (n : Numeral) (x : Single) : List Char :=
  if x.isZero && x.negative then ['-', '0']
  else
    (if n.signed && x.isPositive then ['+'] else []) ++
      match n.int? with
      | some i => (toString i).toList
      | none => nonInteger x

/-- A unit. One that would be read as an exponent begins with a small escaped letter. -/
def unit : List Char → List Char
  | [] => []
  | c :: r =>
    if (c = 'e' ∨ c = 'E') ∧ (r = [] ∨ r.head? = some '-') then codeEscape 'e' ++ name r
    else ident (c :: r)

/-- A token. -/
def token : Token → List Char
  | .ident s => ident s.toList
  | .atKeyword s => '@' :: ident s.toList
  | .hash s => '#' :: name s.toList
  | .idHash s => '#' :: ident s.toList
  | .string s => string s.toList
  | .url s => url s.toList
  | .delim c => [c]
  | .number n => number n n.value
  | .percentage n => number n (n.percentValue.times 100) ++ ['%']
  | .dimension n u => number n n.value ++ unit u.toList
  | .whitespace s => s.toList
  | .comment s => ['/', '*'] ++ s.toList ++ ['*', '/']
  | .colon => [':']
  | .semicolon => [';']
  | .comma => [',']
  | .includeMatch => ['~', '=']
  | .dashMatch => ['|', '=']
  | .prefixMatch => ['^', '=']
  | .suffixMatch => ['$', '=']
  | .substringMatch => ['*', '=']
  | .commentOpen => ['<', '!', '-', '-']
  | .commentClose => ['-', '-', '>']
  | .function s => ident s.toList ++ ['(']
  | .parenOpen => ['(']
  | .squareOpen => ['[']
  | .curlyOpen => ['\x7b']
  | .badUrl s => "url(".toList ++ s.toList ++ [')']
  | .badString s => '"' :: s.toList ++ ['\n']
  | .parenClose => [')']
  | .squareClose => [']']
  | .curlyClose => ['\x7d']

end MailCss.Css.Written
