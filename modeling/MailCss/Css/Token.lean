import MailCss.Decimal.Numeral

/-!
# Tokens of CSS

The tokens that a style sheet or a selector is made of. Names and strings are kept as they read
after their escapes are resolved.
-/

namespace MailCss.Css

open Decimal (Numeral)

/-- A token. -/
inductive Token where
  | ident (name : String)
  | atKeyword (name : String)
  /-- A number sign and a name that is not an identifier. -/
  | hash (name : String)
  /-- A number sign and an identifier. -/
  | idHash (name : String)
  | string (text : String)
  /-- A url that is not in quotes. -/
  | url (text : String)
  | delim (c : Char)
  | number (n : Numeral)
  | percentage (n : Numeral)
  | dimension (n : Numeral) (unit : String)
  | whitespace (text : String)
  | comment (text : String)
  | colon
  | semicolon
  | comma
  | includeMatch
  | dashMatch
  | prefixMatch
  | suffixMatch
  | substringMatch
  | commentOpen
  | commentClose
  | function (name : String)
  | parenOpen
  | squareOpen
  | curlyOpen
  | badUrl (text : String)
  | badString (text : String)
  | parenClose
  | squareClose
  | curlyClose
  deriving DecidableEq, Repr, Inhabited

namespace Token

/-- The token that closes the group which a token opens. -/
def closer? : Token → Option Token
  | .function _ | .parenOpen => some .parenClose
  | .squareOpen => some .squareClose
  | .curlyOpen => some .curlyClose
  | _ => none

/-- Whether the token is a comment. -/
def isComment : Token → Bool
  | .comment _ => true
  | _ => false

/-- Whether the token is a comment or white space. -/
def isSkipped : Token → Bool
  | .comment _ | .whitespace _ => true
  | _ => false

/-- Whether the token can stand in no well-formed value: a closing bracket without its opening
one, a string that a line break cuts off, or a broken url. -/
def isMalformed : Token → Bool
  | .badUrl _ | .badString _ | .parenClose | .squareClose | .curlyClose => true
  | _ => false

end Token

/-- A token and the text that it was read from. -/
structure Lexeme where
  token : Token
  source : List Char
  deriving DecidableEq, Repr, Inhabited

end MailCss.Css
