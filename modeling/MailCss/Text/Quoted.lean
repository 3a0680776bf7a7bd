import MailCss.Text.Hidden

/-!
# Quoted text

Texts and single characters as messages show them: between quotes, with the quote in use and the
backslash escaped, the common controls by letter and every other hidden character by code point.
-/

namespace MailCss.Text

/-- The digits of `n` in base sixteen, in lower case. -/
def hexDigits (n : Nat) : List Char := Nat.toDigits 16 n

/-- One character inside quotes of kind `quote`. -/
def quoteChar (quote c : Char) : List Char :=
  if c = quote ∨ c = '\\' then ['\\', c]
  else if c = '\x00' then ['\\', '0']
  else if c = '\t' then ['\\', 't']
  else if c = '\n' then ['\\', 'n']
  else if c = '\r' then ['\\', 'r']
  else if isHidden c then ['\\', 'u', '\x7b'] ++ hexDigits c.toNat ++ ['\x7d']
  else [c]

/-- A text between double quotes. -/
def quoted (s : String) : String :=
  "\"" ++ String.ofList (s.toList.flatMap (quoteChar '"')) ++ "\""

/-- A character between single quotes. -/
def quotedChar (c : Char) : String :=
  "'" ++ String.ofList (quoteChar '\'' c) ++ "'"

end MailCss.Text
