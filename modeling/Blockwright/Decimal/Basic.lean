/-!
# Decimal numbers

A decimal number is a coefficient with a power of ten. `Decimal.read?` reads the usual notation: an
optional sign, digits with an optional point, and an optional exponent.
-/

namespace Blockwright

/-- The number `± coefficient * 10 ^ exponent`. -/
structure Decimal where
  negative : Bool
  coefficient : Nat
  exponent : Int
deriving DecidableEq, Repr

namespace Decimal

/-- Whether a character is one of the digits 0 to 9. -/
def isDigit (c : Char) : Bool := '0' ≤ c && c ≤ '9'

/-- The number that a list of digits spells. -/
def digitsValue (digits : List Char) : Nat :=
  digits.foldl (fun n c => n * 10 + (c.toNat - '0'.toNat)) 0

/-- Reads an optional sign: whether it is a minus, and what follows it. -/
def readSign : List Char → Bool × List Char
  | '-' :: cs => (true, cs)
  | '+' :: cs => (false, cs)
  | cs => (false, cs)

/-- Reads digits that take up the rest of a text; there is at least one. -/
def readDigits? (cs : List Char) : Option Nat :=
  if cs ≠ [] ∧ cs.all isDigit then some (digitsValue cs) else none

/-- Reads the exponent, which is the rest of a text. No text stands for 0. -/
def readExponent? : List Char → Option Int
  | [] => some 0
  | c :: cs =>
    if c = 'e' ∨ c = 'E' then
      let (negative, digits) := readSign cs
      (readDigits? digits).map fun n => if negative then -(n : Int) else n
    else none

/-- Reads digits, with a point or without. There is at least one digit, before or after the
point. -/
def readUnsigned? (negative : Bool) (cs : List Char) : Option Decimal :=
  let whole := cs.takeWhile isDigit
  let rest := cs.dropWhile isDigit
  let (fraction, rest) :=
    match rest with
    | '.' :: rest => (rest.takeWhile isDigit, rest.dropWhile isDigit)
    | _ => ([], rest)
  if whole ++ fraction = [] then none
  else
    (readExponent? rest).map fun e =>
      { negative, coefficient := digitsValue (whole ++ fraction), exponent := e - fraction.length }

/-- Reads a decimal number that takes up the whole text. -/
def read? (cs : List Char) : Option Decimal :=
  let (negative, rest) := readSign cs
  readUnsigned? negative rest

end Decimal

end Blockwright
