import Blockwright.Decimal.Binary64

/-!
# The range of decimal numbers

A number is in range if floating-point arithmetic stays finite on the way to it: the leading digits,
as many as fit 64 bits, are multiplied by a power of ten. Numbers close below the bound of the
format may thus be out of range, and a number that is divided never is.
-/

namespace Blockwright

namespace Binary64

/-- The value of a number that is whole and not negative. -/
def magnitude (x : Binary64) : Nat :=
  x.mantissa * Nat.pow 2 x.exponent.toNat / Nat.pow 2 (-x.exponent).toNat

/-- The number of the format nearest to a natural number, as a natural number. -/
def nearest (n : Nat) : Nat := ((ofFraction? false n 1).map magnitude).getD 0

end Binary64

namespace Decimal

/-- A coefficient cut to the digits that fit 64 bits, with the number of digits cut off. Every step
cuts off a digit, so the number of digits is fuel enough. -/
def cut : Nat → Nat → Nat × Nat
  | 0, n => (n, 0)
  | fuel + 1, n =>
    if n < Nat.pow 2 64 then (n, 0)
    else
      let (leading, count) := cut fuel (n / 10)
      (leading, count + 1)

/-- The largest power of ten of the format. -/
def largestPower : Nat := 308

/-- Whether a number is in range. -/
def isInRange (d : Decimal) : Bool :=
  let (leading, count) := cut (Binary64.digitCount d.coefficient) d.coefficient
  let power := d.exponent + count
  if leading = 0 ∨ power ≤ 0 then true
  else if largestPower < power then false
  else
    let product := Binary64.nearest leading * Binary64.nearest (Nat.pow 10 power.toNat)
    (Binary64.ofFraction? false product 1).isSome

end Decimal

end Blockwright
