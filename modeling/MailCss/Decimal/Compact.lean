import MailCss.Decimal.Shortest

/-!
# Compact decimals

A decimal with few digits that reads back as a given single-precision number, found with
significands of thirty-two bits.

The interval of reals that round to the number is multiplied by a power of ten and cut down to
whole units on both sides. The search then goes through the powers of ten from large to small, as
in `MailCss.Decimal.Shortest`, and takes the first one with a multiple in what is left of the
interval. Where the shortest decimal is in the margin that was cut off, the compact one has more
digits and is nearer to the number.
-/

namespace MailCss.Decimal

/-- Significands of thirty-two bits. -/
def Format.wide : Format := { bits := 32, leastExponent := -400, greatestExponent := 400 }

/-- A number and the interval around it, all multiplied by `10 ^ power` and counted in units of
which `2 ^ bits` make one. -/
structure Window where
  low : Nat
  value : Nat
  high : Nat
  bits : Nat
  power : Int

namespace Window

/-- The least power of ten that is not below `2 ^ n`, for `n` between -160 and 160. -/
def powerAbove (n : Int) : Int := -((-n * 30103) / 100000)

/-- The power of ten by which a number with an exponent is multiplied: every eighth one is in
use. -/
def powerFor (e : Int) : Int :=
  let p := powerAbove (-29 - e)
  p + (4 - p) % 8

/-- The upper half of a product of significands, rounded. -/
def upperHalf (a b : Nat) : Nat := (a * b + Nat.pow 2 31) / Nat.pow 2 32

/-- The window of `m * 2 ^ e`. -/
def around (m : Nat) (e : Int) : Window :=
  -- In quarters of `2 ^ e`, shifted so that the value has thirty-two bits.
  let low := if m = Nat.pow 2 23 then 4 * m - 1 else 4 * m - 2
  let shift := Nat.pow 2 (29 - Nat.log2 m)
  let e := e - (31 - Nat.log2 m : Nat)
  let power := powerFor e
  match Format.wide.powerOfTen power with
  | .finite c d =>
    { low := upperHalf (low * shift) c + 1
      value := upperHalf (4 * m * shift) c
      high := upperHalf ((4 * m + 2) * shift) c - 1
      bits := (-(e + d + 32)).toNat
      power }
  | _ => ⟨0, 0, 0, 0, 0⟩

/-- The multiple of `10 ^ k` in a window that is nearest to its value, if there is one; a tie goes
up. Below the units the lower end of the window counts only if another multiple is above it. -/
def multiple? (w : Window) (k : Int) : Option Digits :=
  let unit := Nat.pow 2 w.bits * Nat.pow 10 k.toNat
  let scale := Nat.pow 10 (-k).toNat
  let rest := w.high * scale % unit
  let width := (w.high - w.low) * scale
  if rest < width ∨ (rest = width ∧ 0 ≤ k) then
    let below := w.value * scale / unit
    let nearer := unit ≤ 2 * (w.value * scale - below * unit)
    let above := (below + 1) * unit ≤ w.high * scale ∧ (nearer ∨ below * unit < w.low * scale)
    some ⟨if above then below + 1 else below, k - w.power⟩
  else none

/-- The first power of ten from `k` downwards with a multiple in the window, among `n` powers. -/
def search (w : Window) : Nat → Int → Digits
  | 0, _ => ⟨0, 0⟩
  | n + 1, k => (w.multiple? k).getD (w.search n (k - 1))

end Window

/-- Few digits that read back as `m * 2 ^ e`. What is in a window is below `10 ^ 9`. -/
def compact (m : Nat) (e : Int) : Digits :=
  if m = 0 then ⟨0, 0⟩ else (Window.around m e).search 20 8

end MailCss.Decimal
