import MailCss.Decimal.Binary

/-!
# Shortest decimals

The fewest decimal digits that read back as a given single-precision number.

A finite magnitude `m * 2 ^ e` is what every real number in an interval around it rounds to. The
search goes through the powers of ten from large to small and takes the first one with a multiple
in that interval, and of two such multiples the nearer, or the greater if they are equally near.
-/

namespace MailCss.Decimal

/-- A decimal `digits * 10 ^ power`. -/
structure Digits where
  digits : Nat
  power : Int
  deriving DecidableEq, Repr, Inhabited

namespace Digits

/-- The decimal digits of the digits' number. -/
def text (d : Digits) : List Char := Nat.toDigits 10 d.digits

/-- How many digits stand before the point; zero or less when the number is below one. -/
def whole (d : Digits) : Int := (d.text.length : Int) + d.power

end Digits

/-- The interval of reals that round to `m * 2 ^ e`, in quarters of `2 ^ e`; its ends belong to it
when `m` is even. -/
structure Interval where
  low : Nat
  value : Nat
  high : Nat
  closed : Bool

/-- The interval around `m * 2 ^ e`. Below a power of two the neighbour is half as far. -/
def Interval.around (m : Nat) (e : Int) : Interval :=
  { low := if m = Nat.pow 2 23 ∧ Format.single.leastExponent < e then 4 * m - 1 else 4 * m - 2
    value := 4 * m
    high := 4 * m + 2
    closed := m % 2 = 0 }

/-- Whether `c / den` lies in the interval. -/
def Interval.holds (i : Interval) (c den : Nat) : Bool :=
  if i.closed then i.low * den ≤ c && c ≤ i.high * den
  else i.low * den < c && c < i.high * den

/-- The multiple of `10 ^ k` in the interval of `m * 2 ^ e` that is nearest to it, if there is
one. -/
def multiple? (m : Nat) (e k : Int) : Option Digits :=
  let i := Interval.around m e
  -- One quarter of `2 ^ e` is `num / den` units of `10 ^ k`, up to the common factor four.
  let num := Nat.pow 2 e.toNat * Nat.pow 10 (-k).toNat
  let den := 4 * (Nat.pow 2 (-e).toNat * Nat.pow 10 k.toNat)
  let below := i.value * num / den
  let above := below + 1
  let inside c := 0 < c && i.holds (c * den) num
  match inside below, inside above with
  | true, true =>
    -- The nearer of the two; a tie goes up.
    if 2 * (i.value * num - below * den) < den then some ⟨below, k⟩ else some ⟨above, k⟩
  | true, false => some ⟨below, k⟩
  | false, true => some ⟨above, k⟩
  | false, false => none

/-- The first power of ten from `k` downwards with a multiple in the interval, among `n` powers. -/
def search (m : Nat) (e : Int) : Nat → Int → Digits
  | 0, _ => ⟨0, 0⟩
  | n + 1, k => (multiple? m e k).getD (search m e n (k - 1))

/-- The fewest digits that read back as `m * 2 ^ e`. Every finite magnitude is below `10 ^ 39`
and is a multiple of a power of ten above `10 ^ -150`. -/
def shortest (m : Nat) (e : Int) : Digits :=
  if m = 0 then ⟨0, 0⟩ else search m e 190 39

end MailCss.Decimal
