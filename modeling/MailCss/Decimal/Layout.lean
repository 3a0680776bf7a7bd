import MailCss.Decimal.Shortest
import MailCss.Decimal.Single

/-!
# Layouts of decimals

Writing decimals down. A layout says from where to where numbers are positional, whether a whole
number gets a fraction, which decimal stands for a number and with how many significant digits, and
what stands for a number that is infinite or none.
-/

namespace MailCss.Decimal

/-- How a decimal is laid out. -/
structure Layout where
  /-- Positional from this many digits before the point. -/
  least : Int
  /-- Positional up to this many digits before the point. -/
  most : Int
  /-- Whether a positional number without a fraction gets `.0`. -/
  pointZero : Bool
  /-- The decimal that stands for `m * 2 ^ e`. -/
  decimal : Nat → Int → Digits := shortest
  /-- The greatest number of significant digits. -/
  significant : Option Nat
  /-- What stands for an infinite number. -/
  infinite : String := "inf"
  /-- What stands for no number. -/
  notANumber : String := "NaN"

/-- A laid-out coefficient: a number and how many of its digits stand after the point. -/
structure Coefficient where
  number : Nat
  places : Nat

namespace Coefficient

/-- The coefficient with at most `n` significant digits; a half goes up. -/
def limit (n : Nat) (c : Coefficient) : Coefficient :=
  let drop := (Nat.toDigits 10 c.number).length - n
  if drop = 0 then c
  else
    let unit := Nat.pow 10 drop
    { c with number := (c.number + 5 * Nat.pow 10 (drop - 1)) / unit * unit }

/-- The digits after the point, without the zeros at their end. -/
def fraction (c : Coefficient) : List Char :=
  let ds := Nat.toDigits 10 (c.number % Nat.pow 10 c.places)
  let padded := List.replicate (c.places - ds.length) '0' ++ ds
  if c.places = 0 then [] else (padded.reverse.dropWhile (· == '0')).reverse

/-- The digits, with a point if there is a fraction. -/
def text (c : Coefficient) : List Char :=
  Nat.toDigits 10 (c.number / Nat.pow 10 c.places) ++
    if c.fraction.isEmpty then [] else '.' :: c.fraction

end Coefficient

namespace Layout

/-- Whether a decimal is written positionally. -/
def isPositional (l : Layout) (d : Digits) : Bool :=
  d.digits == 0 || (l.least ≤ d.whole && d.whole ≤ l.most)

/-- The coefficient under a layout. -/
def coefficient (l : Layout) (d : Digits) : Coefficient :=
  let c : Coefficient :=
    if l.isPositional d then ⟨d.digits * Nat.pow 10 d.power.toNat, (-d.power).toNat⟩
    else ⟨d.digits, d.text.length - 1⟩
  match l.significant with
  | some n => c.limit n
  | none => c

/-- A decimal under a layout. -/
def render (l : Layout) (d : Digits) : List Char :=
  let c := l.coefficient d
  if l.isPositional d then
    c.text ++ if l.pointZero && c.fraction.isEmpty then ['.', '0'] else []
  else c.text ++ 'e' :: (toString (d.whole - 1)).toList

/-- The magnitude of a number under a layout. -/
def magnitude (l : Layout) : Magnitude → List Char
  | .finite m e => l.render (l.decimal m e)
  | .infinite => l.infinite.toList
  | .notANumber => l.notANumber.toList

/-- A number under a layout, with a minus where it is negative. -/
def write (l : Layout) (x : Single) : List Char :=
  match x.magnitude with
  | .notANumber => l.magnitude x.magnitude
  | _ => (if x.negative then ['-'] else []) ++ l.magnitude x.magnitude

end Layout

end MailCss.Decimal
