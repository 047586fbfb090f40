import Blockwright.Decimal.Basic
import Blockwright.Text.Space

/-!
# Binary floating-point numbers

The finite numbers of the binary64 format, and the one nearest to a decimal number, in exact
arithmetic on natural numbers.
-/

namespace Blockwright

/-- The number `± mantissa * 2 ^ exponent`. In the binary64 format the mantissa is below `2 ^ 53`
and the exponent at least `-1074`; of the ways to write a number the one with the least exponent is
used. -/
structure Binary64 where
  negative : Bool
  mantissa : Nat
  exponent : Int
deriving DecidableEq, Repr

namespace Binary64

/-- The quotient rounded to the nearest number, a half to the even one. -/
def roundToEven (num den : Nat) : Nat :=
  let q := num / den
  let r := num % den
  if 2 * r < den then q
  else if den < 2 * r then q + 1
  else if q % 2 = 0 then q
  else q + 1

/-- The fraction `num / (den * 2 ^ e)` as numerator and denominator. -/
def scaleDown (num den : Nat) (e : Int) : Nat × Nat :=
  if 0 ≤ e then (num, den * Nat.pow 2 e.toNat) else (num * Nat.pow 2 (-e).toNat, den)

/-- The exponent that the fraction `num / den` has in the format. -/
def exponentOf (num den : Nat) : Int :=
  let guess : Int := (num.log2 : Int) - den.log2 - 52
  let (n, d) := scaleDown num den guess
  max (if n < d * Nat.pow 2 52 then guess - 1 else guess) (-1074)

/-- The number of the format nearest to the fraction `num / den`, unless it is too large. -/
def ofFraction? (negative : Bool) (num den : Nat) : Option Binary64 :=
  if num = 0 then some ⟨negative, 0, -1074⟩
  else
    let e := exponentOf num den
    let (n, d) := scaleDown num den e
    let m := roundToEven n d
    let (m, e) := if m = Nat.pow 2 53 then (Nat.pow 2 52, e + 1) else (m, e)
    if 971 < e then none else some ⟨negative, m, e⟩

/-- The number of decimal digits. -/
def digitCount (n : Nat) : Nat := (Nat.toDigits 10 n).length

/-- The number of the format nearest to a decimal number, unless it is too large. Numbers far
outside the range of the format are settled by the number of their digits. -/
def ofDecimal? (d : Decimal) : Option Binary64 :=
  let top : Int := digitCount d.coefficient + d.exponent
  if d.coefficient = 0 ∨ top < -400 then some ⟨d.negative, 0, -1074⟩
  else if 400 < top then none
  else if 0 ≤ d.exponent then
    ofFraction? d.negative (d.coefficient * Nat.pow 10 d.exponent.toNat) 1
  else ofFraction? d.negative d.coefficient (Nat.pow 10 (-d.exponent).toNat)

/-- The number that a text spells, white space round it aside. Infinities are no numbers here. -/
def read? (text : String) : Option Binary64 := do
  ofDecimal? (← Decimal.read? (Text.trimChars text.toList))

/-- The whole number nearest to the absolute value, a half away from zero. -/
def roundAbs (x : Binary64) : Nat :=
  if 0 ≤ x.exponent then x.mantissa * Nat.pow 2 x.exponent.toNat
  else
    let d := Nat.pow 2 (-x.exponent).toNat
    (2 * x.mantissa + d) / (2 * d)

/-- The nearest whole number, a half away from zero. -/
def round (x : Binary64) : Int :=
  if x.negative then -(x.roundAbs : Int) else x.roundAbs

/-- Whether the number is whole. -/
def isWhole (x : Binary64) : Bool :=
  0 ≤ x.exponent || x.mantissa % Nat.pow 2 (-x.exponent).toNat == 0

end Binary64

end Blockwright
