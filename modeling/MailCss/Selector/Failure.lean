import MailCss.Css.Token
import MailCss.Decimal.Layout
import MailCss.Text.Quoted

/-!
# Why a selector cannot be read

The causes for which a selector list is refused, where in the text each was found, and the wording
of each.

A place is given by the number of characters that were left when the cause was found. So it does
not depend on what stands before the selector, and a part of a text reports the same place
wherever it stands, up to what follows it (`Failure.before`).
-/

namespace MailCss

open Css (Token)
open Decimal (Layout Numeral)

/-- Why a selector list is refused. -/
inductive Cause where
  | unexpectedToken (t : Token)
  | endOfInput
  /-- Arguments are nested too deep. -/
  | tooDeep
  | emptySelector
  | danglingCombinator
  | invalidState
  | afterPseudoElement (t : Token)
  | pseudoNeedsIdent (t : Token)
  | classNeedsIdent (t : Token)
  | namespaceNeedsName (t : Token)
  | attributeNeedsName (t : Token)
  | attributeNeedsBar (t : Token)
  | badAttributeName (t : Token)
  | badAttributeOperator (t : Token)
  | badAttributeValue (t : Token)
  | pseudoClassAfterPseudoElement
  | pseudoClassAfterScrollbar
  | pseudoClassBeforeScrollbar
  deriving DecidableEq, Repr, Inhabited

/-- A cause, and how many characters were left when it was found. -/
structure Failure where
  cause : Cause
  left : Nat
  deriving DecidableEq, Repr, Inhabited

/-- The same failure seen from a text with `n` more characters behind. -/
def Failure.before (n : Nat) (f : Failure) : Failure := { f with left := f.left + n }

/-! ## Wording -/

namespace Cause

/-- Numbers in messages are positional from `10 ^ -4` up to `10 ^ 16` and always have a
fraction there. -/
def numberLayout : Layout := { least := -3, most := 16, pointZero := true, significant := none }

/-- A truth value in a message. -/
def boolText (b : Bool) : String := if b then "true" else "false"

/-- An optional integer in a message. -/
def intText : Option Int → String
  | none => "None"
  | some i => "Some(" ++ toString i ++ ")"

/-- The fields of a number in a message; `label` names the value. -/
def numeralText (label : String) (n : Numeral) (x : Decimal.Single) : String :=
  "has_sign: " ++ boolText n.signed ++ ", " ++ label ++ ": " ++
    String.ofList (numberLayout.write x) ++ ", int_value: " ++ intText n.int?

/-- A text in brackets behind a word. -/
def tagged (word text : String) : String := word ++ "(" ++ text ++ ")"

/-- Fields in braces behind a word. -/
def record (word fields : String) : String := word ++ " \x7b " ++ fields ++ " \x7d"

/-- A token in a message; `stringWord` is the word for a string. -/
def tokenText (stringWord : String) : Token → String
  | .ident s => tagged "Ident" (Text.quoted s)
  | .atKeyword s => tagged "AtKeyword" (Text.quoted s)
  | .hash s => tagged "Hash" (Text.quoted s)
  | .idHash s => tagged "IDHash" (Text.quoted s)
  | .string s => tagged stringWord (Text.quoted s)
  | .url s => tagged "UnquotedUrl" (Text.quoted s)
  | .delim c => tagged "Delim" (Text.quotedChar c)
  | .number n => record "Number" (numeralText "value" n n.value)
  | .percentage n => record "Percentage" (numeralText "unit_value" n n.percentValue)
  | .dimension n u =>
    record "Dimension" (numeralText "value" n n.value ++ ", unit: " ++ Text.quoted u)
  | .whitespace s => tagged "WhiteSpace" (Text.quoted s)
  | .comment s => tagged "Comment" (Text.quoted s)
  | .colon => "Colon"
  | .semicolon => "Semicolon"
  | .comma => "Comma"
  | .includeMatch => "IncludeMatch"
  | .dashMatch => "DashMatch"
  | .prefixMatch => "PrefixMatch"
  | .suffixMatch => "SuffixMatch"
  | .substringMatch => "SubstringMatch"
  | .commentOpen => "CDO"
  | .commentClose => "CDC"
  | .function s => tagged "Function" (Text.quoted s)
  | .parenOpen => "ParenthesisBlock"
  | .squareOpen => "SquareBracketBlock"
  | .curlyOpen => "CurlyBracketBlock"
  | .badUrl s => tagged "BadUrl" (Text.quoted s)
  | .badString s => tagged "BadString" (Text.quoted s)
  | .parenClose => "CloseParenthesis"
  | .squareClose => "CloseSquareBracket"
  | .curlyClose => "CloseCurlyBracket"

/-- A cause that any CSS value can have. -/
def basic (text : String) : String := tagged "Basic" text

/-- A cause of selectors. -/
def custom (text : String) : String := tagged "Custom" (tagged "SelectorError" text)

/-- A cause of selectors with the token that it is about. -/
def about (word : String) (t : Token) : String := custom (tagged word (tokenText "String" t))

/-- The wording of a cause. -/
def text : Cause → String
  | .unexpectedToken t => basic (tagged "UnexpectedToken" (tokenText "QuotedString" t))
  | .endOfInput => basic "EndOfInput"
  | .tooDeep => tagged "Custom" "MaximumNestingDepth"
  | .emptySelector => custom "EmptySelector"
  | .danglingCombinator => custom "DanglingCombinator"
  | .invalidState => custom "InvalidState"
  | .afterPseudoElement t => about "UnexpectedSelectorAfterPseudoElement" t
  | .pseudoNeedsIdent t => about "PseudoElementExpectedIdent" t
  | .classNeedsIdent t => about "ClassNeedsIdent" t
  | .namespaceNeedsName t => about "ExplicitNamespaceUnexpectedToken" t
  | .attributeNeedsName t => about "NoQualifiedNameInAttributeSelector" t
  | .attributeNeedsBar t => about "ExpectedBarInAttr" t
  | .badAttributeName t => about "InvalidQualNameInAttr" t
  | .badAttributeOperator t => about "UnexpectedTokenInAttributeSelector" t
  | .badAttributeValue t => about "BadValueInAttr" t
  | .pseudoClassAfterPseudoElement => custom "InvalidPseudoClassAfterPseudoElement"
  | .pseudoClassAfterScrollbar => custom "InvalidPseudoClassAfterWebKitScrollbar"
  | .pseudoClassBeforeScrollbar => custom "InvalidPseudoClassBeforeWebKitScrollbar"

end Cause

end MailCss
