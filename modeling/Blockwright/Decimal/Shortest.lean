import Blockwright.Decimal.Binary64

/-!
# Shortest decimal text

`Binary64.shortest` finds the decimal number with the fewest digits that reads back to a given
number, and of those the nearest. `Binary64.text` writes it without an exponent.
-/

namespace Blockwright.Binary64

/-- A number and the ends of the interval of numbers that round to it, as numerators over one
denominator. The ends belong to the interval if the mantissa is even. -/
structure Rounding where
  low : Nat
  value : Nat
  high : Nat
  den : Nat
  closed : Bool
deriving Repr

/-- The interval that rounds to the absolute value of `x`. Below a power of two the lower half is
half as wide. -/
def rounding (x : Binary64) : Rounding :=
  let m := x.mantissa
  let below := if m = Nat.pow 2 52 ∧ -1074 < x.exponent then 1 else 2
  let up := Nat.pow 2 x.exponent.toNat
  { low := (4 * m - below) * up
    value := 4 * m * up
    high := (4 * m + 2) * up
    den := 4 * Nat.pow 2 (-x.exponent).toNat
    closed := m % 2 = 0 }

/-- The numerator and the denominator of `c * 10 ^ p`. -/
def powerFraction (c : Nat) (p : Int) : Nat × Nat :=
  if 0 ≤ p then (c * Nat.pow 10 p.toNat, 1) else (c, Nat.pow 10 (-p).toNat)

/-- Whether `c * 10 ^ p` lies in the interval. -/
def Rounding.contains (r : Rounding) (c : Nat) (p : Int) : Bool :=
  let (n, d) := powerFraction c p
  if r.closed then r.low * d ≤ n * r.den && n * r.den ≤ r.high * d
  else r.low * d < n * r.den && n * r.den < r.high * d

/-- The largest `c` with `c * 10 ^ p` at most the value. -/
def Rounding.floor (r : Rounding) (p : Int) : Nat :=
  if 0 ≤ p then r.value / (r.den * Nat.pow 10 p.toNat)
  else r.value * Nat.pow 10 (-p).toNat / r.den

/-- Whether the value lies nearer to `c * 10 ^ p` than to `(c + 1) * 10 ^ p`. -/
def Rounding.nearerBelow (r : Rounding) (c : Nat) (p : Int) : Bool :=
  let (n, d) := powerFraction (2 * c + 1) p
  2 * r.value * d < n * r.den

/-- The neighbour of the value on the grid of multiples of `10 ^ p` that reads back; of two such
neighbours the nearer, and the upper one if both are equally near. -/
def Rounding.onGrid? (r : Rounding) (p : Int) : Option Nat :=
  let c := r.floor p
  match r.contains c p, r.contains (c + 1) p with
  | true, true => some (if r.nearerBelow c p then c else c + 1)
  | true, false => some c
  | false, true => some (c + 1)
  | false, false => none

/-- The first `k`, from the given one and for at most `fuel` steps, for which `10 ^ k` times the
value is at least one. -/
def Rounding.firstFactor (r : Rounding) (k : Nat) : Nat → Nat
  | 0 => k
  | fuel + 1 => if r.den ≤ r.value * Nat.pow 10 k then k else r.firstFactor (k + 1) fuel

/-- The place of the first digit: the largest `k` with `10 ^ k` at most the value. No value of the
format is below `10 ^ -400`. -/
def Rounding.firstPlace (r : Rounding) : Int :=
  let whole := r.value / r.den
  if whole ≠ 0 then (digitCount whole : Int) - 1 else -(r.firstFactor 1 400 : Int)

/-- The first grid, from the coarsest, on which the value has a neighbour that reads back. -/
def Rounding.search (r : Rounding) (p : Int) : Nat → Nat × Int
  | 0 => (r.floor p, p)
  | fuel + 1 =>
    match r.onGrid? p with
    | some c => (c, p)
    | none => r.search (p - 1) fuel

/-- The digits and the power of ten of the shortest decimal number that reads back to the absolute
value of `x`. The search starts one place above the first digit, since the value may round up to the
next power of ten. -/
def shortest (x : Binary64) : Nat × Int :=
  if x.mantissa = 0 then (0, 0)
  else
    let r := x.rounding
    r.search (r.firstPlace + 1) 18

/-- The number `c * 10 ^ p` in digits, with a point if it is not whole. -/
def positional (c : Nat) (p : Int) : List Char :=
  let digits := Nat.toDigits 10 c
  if 0 ≤ p then digits ++ List.replicate p.toNat '0'
  else
    let places := (-p).toNat
    let padded := List.replicate (places + 1 - digits.length) '0' ++ digits
    padded.take (padded.length - places) ++ '.' :: padded.drop (padded.length - places)

/-- The shortest decimal text that reads back to the number, without an exponent. -/
def text (x : Binary64) : String :=
  let (c, p) := x.shortest
  String.ofList ((if x.negative then ['-'] else []) ++ positional c p)

/-- The text of a number in a program: a whole number below `10 ^ 15` is written with all its digits
and zero without a sign, any other number as its shortest decimal text. -/
def literal (x : Binary64) : String :=
  if x.isWhole && x.roundAbs < Nat.pow 10 15 then
    if x.negative && x.roundAbs ≠ 0 then "-" ++ toString x.roundAbs else toString x.roundAbs
  else x.text

end Blockwright.Binary64
