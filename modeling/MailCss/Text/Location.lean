/-!
# Locations in a text

A location is a line, counted from one, and a column, counted from zero in UTF-16 code units.
Line feed, carriage return and form feed each end a line, and a carriage return with a line feed
right after it ends one line, not two.

A `Mark` is a location reached by reading; it remembers whether the last character was a carriage
return, so that reading goes character by character.

Main statement: `Mark.advance_append` (reading two texts in turn is reading them joined).
-/

namespace MailCss.Text

/-- A line, counted from one, and a column, counted from zero. -/
structure Location where
  line : Nat := 0
  column : Nat := 0
  deriving DecidableEq, Repr, Inhabited

/-- The number of UTF-16 code units of a character. -/
def units16 (c : Char) : Nat := if c.toNat < 0x10000 then 1 else 2

/-- How far reading has come, and whether a carriage return was read last. -/
structure Mark where
  line : Nat := 1
  column : Nat := 0
  afterReturn : Bool := false
  deriving DecidableEq, Repr, Inhabited

namespace Mark

/-- The mark at the start of a text. -/
def start : Mark := {}

/-- The mark after one more character. -/
def step (m : Mark) (c : Char) : Mark :=
  if c = '\n' ∧ m.afterReturn = true then { m with afterReturn := false }
  else if c = '\n' ∨ c = '\r' ∨ c = '\x0c' then
    { line := m.line + 1, column := 0, afterReturn := c == '\r' }
  else { m with column := m.column + units16 c, afterReturn := false }

/-- The mark after reading a text. -/
def advance (m : Mark) (s : List Char) : Mark := s.foldl step m

/-- The line and column of a mark. -/
def location (m : Mark) : Location := { line := m.line, column := m.column }

@[simp] theorem advance_nil (m : Mark) : m.advance [] = m := rfl

/-- Reading two texts in turn is reading them joined. -/
@[simp] theorem advance_append (m : Mark) (s t : List Char) :
    m.advance (s ++ t) = (m.advance s).advance t := by
  simp [advance]

end Mark

end MailCss.Text
