/-!
# Blank characters

White space as Unicode's property White_Space counts it, and trimming by it. This set is larger
than the white space that separates CSS tokens (`MailCss.Css.isSpace`): texts are *trimmed* by
this one and *tokenized* by the other.
-/

namespace MailCss.Text

/-- The characters with the Unicode property White_Space, twenty-five in all. -/
def isBlank (c : Char) : Bool :=
  let n := c.toNat
  (9 ≤ n && n ≤ 13) || n == 0x20 || n == 0x85 || n == 0xa0 || n == 0x1680 ||
    (0x2000 ≤ n && n ≤ 0x200a) || n == 0x2028 || n == 0x2029 || n == 0x202f || n == 0x205f ||
    n == 0x3000

/-- A text without its leading blanks. -/
def trimStart (s : List Char) : List Char := s.dropWhile isBlank

/-- A text without its trailing blanks. -/
def trimEnd (s : List Char) : List Char := (s.reverse.dropWhile isBlank).reverse

/-- A text without its blanks at either end. -/
def trim (s : List Char) : List Char := trimEnd (trimStart s)

end MailCss.Text
