/-!
# Binary arithmetic with rounding

Numbers with a binary significand of limited length, as exact values: a magnitude is
`m * 2 ^ e`, infinite, or no number. A `Format` says how long significands are and which exponents
there are. Sums, products and quotients are exact first and then rounded to the nearest magnitude
of the format, a tie going to the even significand.

Main statement: `two_mul_roundHalfEven_bounds` (the rounded quotient is within half a unit).
-/

namespace MailCss.Decimal

/-- A magnitude: `m * 2 ^ e`, too large for that form, or no number at all. -/
inductive Magnitude where
  | finite (m : Nat) (e : Int)
  | infinite
  | notANumber
  deriving DecidableEq, Repr, Inhabited

/-- The natural number nearest to `num / den`, a tie going to the even one. -/
def roundHalfEven (num den : Nat) : Nat :=
  let q := num / den
  let r := num % den
  if 2 * r < den then q
  else if den < 2 * r then q + 1
  else if q % 2 = 0 then q else q + 1

/-- The rounded quotient is within half a unit of the quotient. -/
theorem two_mul_roundHalfEven_bounds (num den : Nat) (h : 0 < den) :
    2 * (roundHalfEven num den * den) ≤ 2 * num + den ∧
      2 * num ≤ 2 * (roundHalfEven num den * den) + den := by
  have hd := Nat.div_add_mod num den
  have hr := Nat.mod_lt num h
  have hc : (num / den + 1) * den = den * (num / den) + den := by
    rw [Nat.add_mul, Nat.mul_comm, Nat.one_mul]
  have hc' : num / den * den = den * (num / den) := Nat.mul_comm ..
  simp only [roundHalfEven]
  split
  · rw [hc']; omega
  · split
    · rw [hc]; omega
    · split
      · rw [hc']; omega
      · rw [hc]; omega

/-- A binary format: the bits of a significand, and the exponents of finite magnitudes. -/
structure Format where
  bits : Nat
  leastExponent : Int
  greatestExponent : Int

namespace Format

/-- Single precision. -/
def single : Format := { bits := 24, leastExponent := -149, greatestExponent := 104 }

/-- Double precision. -/
def double : Format := { bits := 53, leastExponent := -1074, greatestExponent := 971 }

/-- Zero. -/
def zero (f : Format) : Magnitude := .finite 0 f.leastExponent

/-- `num * 2 ^ -e / den`, rounded to a natural number. -/
def roundScaled (num den : Nat) (e : Int) : Nat :=
  roundHalfEven (num * Nat.pow 2 (-e).toNat) (den * Nat.pow 2 e.toNat)

/-- The exponent at which `num / den` has a full significand, or the least one. -/
def exponentOf (f : Format) (num den : Nat) : Int :=
  let e : Int := (Nat.log2 num : Int) - (Nat.log2 den : Int) - (f.bits - 1 : Nat)
  -- The guess is one too large when the quotient of the leading bits is below one.
  let e :=
    if num * Nat.pow 2 (-e).toNat < Nat.pow 2 (f.bits - 1) * (den * Nat.pow 2 e.toNat) then e - 1
    else e
  max e f.leastExponent

/-- The magnitude nearest to `num / den`. -/
def nearest (f : Format) (num den : Nat) : Magnitude :=
  if num = 0 then f.zero
  else
    let e := f.exponentOf num den
    let m := roundScaled num den e
    -- Rounding up may need one bit more.
    let (m, e) := if m = Nat.pow 2 f.bits then (Nat.pow 2 (f.bits - 1), e + 1) else (m, e)
    if f.greatestExponent < e then .infinite else .finite m e

/-- The magnitude nearest to `m * 2 ^ e / den`. -/
def nearestScaled (f : Format) (m : Nat) (e : Int) (den : Nat) : Magnitude :=
  f.nearest (m * Nat.pow 2 e.toNat) (Nat.pow 2 (-e).toNat * den)

/-- A magnitude of any format in this one. -/
def round (f : Format) : Magnitude → Magnitude
  | .finite m e => f.nearestScaled m e 1
  | x => x

/-- The sum of two magnitudes. -/
def add (f : Format) : Magnitude → Magnitude → Magnitude
  | .finite m e, .finite n d =>
    let low := min e d
    f.nearestScaled (m * Nat.pow 2 (e - low).toNat + n * Nat.pow 2 (d - low).toNat) low 1
  | .notANumber, _ | _, .notANumber => .notANumber
  | .infinite, _ | _, .infinite => .infinite

/-- The product of two magnitudes. That of zero and an infinite one is no number. -/
def mul (f : Format) : Magnitude → Magnitude → Magnitude
  | .finite m e, .finite n d => f.nearestScaled (m * n) (e + d) 1
  | .notANumber, _ | _, .notANumber => .notANumber
  | .infinite, .infinite => .infinite
  | .infinite, .finite m _ | .finite m _, .infinite => if m = 0 then .notANumber else .infinite

/-- A magnitude divided by a positive natural number. -/
def div (f : Format) (k : Nat) : Magnitude → Magnitude
  | .finite m e => f.nearestScaled m e k
  | x => x

/-- The natural number `n`. -/
def ofNat (f : Format) (n : Nat) : Magnitude := f.nearest n 1

/-- The power of ten with exponent `k`; infinite or zero where no finite one is near. -/
def powerOfTen (f : Format) (k : Int) : Magnitude :=
  if 400 < k then .infinite
  else if k < -400 then f.zero
  else f.nearest (Nat.pow 10 k.toNat) (Nat.pow 10 (-k).toNat)

end Format

end MailCss.Decimal
