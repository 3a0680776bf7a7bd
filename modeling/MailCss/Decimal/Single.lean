import MailCss.Decimal.Binary

/-!
# Single-precision numbers

Signed numbers of single precision. Zero has a sign too.
-/

namespace MailCss.Decimal

/-- A signed magnitude of single precision. -/
structure Single where
  negative : Bool := false
  magnitude : Magnitude
  deriving DecidableEq, Repr, Inhabited

namespace Single

/-- The product of a number and a natural number, rounded. -/
def times (x : Single) (k : Nat) : Single :=
  { x with magnitude := Format.single.mul x.magnitude (Format.single.ofNat k) }

/-- Whether the number is zero, of either sign. -/
def isZero (x : Single) : Bool :=
  match x.magnitude with
  | .finite m _ => m == 0
  | _ => false

/-- Whether the number has no fractional part. -/
def isWhole (x : Single) : Bool :=
  match x.magnitude with
  | .finite m e => m % Nat.pow 2 (-e).toNat == 0
  | _ => false

/-- Whether a plus may be written in front of the number. -/
def isPositive (x : Single) : Bool := !x.negative && x.magnitude != .notANumber

end Single

end MailCss.Decimal
