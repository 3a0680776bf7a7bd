import MailCss.Decimal.Single

/-!
# Numerals

A number as it is written: a sign, decimal digits with a point among them, and a power of ten.

Its value is computed in double precision, rounding after each step: the digits before the point
from left to right, the digits behind it each times its own power of ten, the sum of both, and that
times the written power of ten. The result is rounded to single precision. A numeral with neither
fraction nor exponent also has an integer value, held within 32 bits.
-/

namespace MailCss.Decimal

/-- The value of a decimal digit. -/
def digitValue (c : Char) : Nat := c.toNat - '0'.toNat

/-- The number that decimal digits write. -/
def natOfDigits (ds : List Char) : Nat := ds.foldl (fun n c => 10 * n + digitValue c) 0

/-- A number as it is written. -/
structure Numeral where
  /-- Whether a sign is written. -/
  signed : Bool
  /-- Whether that sign is a minus. -/
  negative : Bool
  /-- The digits before the point. -/
  whole : List Char
  /-- The digits behind the point. -/
  fraction : List Char
  /-- The power of ten that is written after the digits. -/
  exponent : Int
  /-- Whether neither point nor exponent is written. -/
  integral : Bool
  deriving DecidableEq, Repr, Inhabited

namespace Numeral

/-- The greatest integer value. -/
def greatestInt : Int := 2147483647

/-- The least integer value. -/
def leastInt : Int := -2147483648

/-- The integer value of a numeral written as an integer, held within 32 bits. -/
def int? (n : Numeral) : Option Int :=
  if n.integral then
    let m : Int := natOfDigits n.whole
    some (max leastInt (min greatestInt (if n.negative then -m else m)))
  else none

open Format (double single)

/-- The value of digits before the point. -/
def wholeValue (ds : List Char) : Magnitude :=
  ds.foldl (fun v c => double.add (double.mul v (double.ofNat 10)) (double.ofNat (digitValue c)))
    double.zero

/-- The sum of `sum` and digits behind the point, the first of which counts `unit`. -/
def fractionFrom (sum unit : Magnitude) : List Char → Magnitude
  | [] => sum
  | c :: ds =>
    fractionFrom (double.add sum (double.mul (double.ofNat (digitValue c)) unit))
      (double.mul unit (double.powerOfTen (-1))) ds

/-- The value of digits behind the point. -/
def fractionValue (ds : List Char) : Magnitude :=
  fractionFrom double.zero (double.powerOfTen (-1)) ds

/-- The magnitude of a numeral in double precision. -/
def magnitude (n : Numeral) : Magnitude :=
  double.mul (double.add (wholeValue n.whole) (fractionValue n.fraction))
    (double.powerOfTen n.exponent)

/-- The value of a numeral. -/
def value (n : Numeral) : Single :=
  { negative := n.negative, magnitude := single.round n.magnitude }

/-- The value of a numeral that counts hundredths. -/
def percentValue (n : Numeral) : Single :=
  { negative := n.negative, magnitude := single.round (double.div 100 n.magnitude) }

end Numeral

end MailCss.Decimal
