/-!
# Operator precedence

The rungs of Python's operator precedence, tightest first. A rule reports the rung of the
expression that it writes and asks for a rung for each operand; an operand on a looser rung is put
in brackets.
-/

namespace Blockwright

/-- A rung of the ladder of operators, tightest first. -/
inductive Precedence
  | atomic | member | functionCall | exponentiation | unarySign | multiplicative | additive
  | relational | logicalNot | logicalAnd | logicalOr | lambda | await | loosest
deriving DecidableEq, Repr, Inhabited

namespace Precedence

/-- The place of a rung on the ladder, from the tightest. -/
def rank : Precedence → Nat
  | atomic => 0
  | member => 1
  | functionCall => 2
  | exponentiation => 3
  | unarySign => 4
  | multiplicative => 5
  | additive => 6
  | relational => 7
  | logicalNot => 8
  | logicalAnd => 9
  | logicalOr => 10
  | lambda => 11
  | await => 12
  | loosest => 13

/-- The next tighter rung; the tightest rung is its own. -/
def tighter : Precedence → Precedence
  | atomic => atomic
  | member => atomic
  | functionCall => member
  | exponentiation => functionCall
  | unarySign => exponentiation
  | multiplicative => unarySign
  | additive => multiplicative
  | relational => additive
  | logicalNot => relational
  | logicalAnd => logicalNot
  | logicalOr => logicalAnd
  | lambda => logicalOr
  | await => lambda
  | loosest => await

theorem rank_tighter (p : Precedence) : p.tighter.rank = p.rank - 1 := by
  cases p <;> rfl

/-- Whether code on the rung `produced` needs brackets where `required` is asked for. Member access
and calls chain from left to right, as in `f(x).y` and `a.b(c)`, so neither brackets the other. -/
def needsBrackets (produced required : Precedence) : Bool :=
  required.rank < produced.rank &&
    match required, produced with
    | member, functionCall => false
    | functionCall, member => false
    | _, _ => true

/-- Code on the rung `produced`, bracketed where `required` is asked for and it needs to be. -/
def wrap (code : String) (produced required : Precedence) : String :=
  if needsBrackets produced required then "(" ++ code ++ ")" else code

/-- The rungs asked for on the left and on the right of a binary operator. Powers group to the
right, comparisons do not chain, and the other operators group to the left. -/
def operands : Precedence → Precedence × Precedence
  | exponentiation => (functionCall, unarySign)
  | logicalAnd => (logicalAnd, logicalAnd)
  | logicalOr => (logicalOr, logicalOr)
  | relational => (additive, additive)
  | p => (p, p.tighter)

/-- The rung of an arithmetic operator. -/
def ofArithmetic? (operator : String) : Option Precedence :=
  if operator ∈ ["+", "-"] then some additive
  else if operator ∈ ["*", "/", "//", "%"] then some multiplicative
  else if operator = "**" then some exponentiation
  else none

end Precedence

end Blockwright
