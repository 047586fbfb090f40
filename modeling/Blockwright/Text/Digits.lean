/-!
# Digits

Numbers written in digits of a base up to sixteen.
-/

namespace Blockwright.Text

/-- The value of a digit in a base up to sixteen. -/
def digit? (base : Nat) (c : Char) : Option Nat :=
  let value :=
    if '0' ≤ c ∧ c ≤ '9' then some (c.toNat - '0'.toNat)
    else if 'a' ≤ c ∧ c ≤ 'f' then some (c.toNat - 'a'.toNat + 10)
    else if 'A' ≤ c ∧ c ≤ 'F' then some (c.toNat - 'A'.toNat + 10)
    else none
  value.filter (· < base)

/-- The number that digits spell, from the number that the digits before them spell. -/
def digits? (base acc : Nat) : List Char → Option Nat
  | [] => some acc
  | c :: cs => do digits? base (acc * base + (← digit? base c)) cs

/-- A byte as two hexadecimal digits in lower case. -/
def hexByte (n : Nat) : List Char := [Nat.digitChar (n / 16 % 16), Nat.digitChar (n % 16)]

end Blockwright.Text
