import Blockwright.Text.Join
import Blockwright.Text.Space

/-!
# Argument lists

An argument list is written as one text (compact) or as one value for each parameter (expanded).
`split` cuts the compact text at its outer commas; `expand` gives each parameter a value.
-/

namespace Blockwright.Arguments

/-- What a scan of an argument text keeps in mind: open brackets, and inside a string literal its
quote and whether a backslash stands before the next character. -/
structure Scan where
  depth : Nat := 0
  quote : Option Char := none
  escaped : Bool := false
deriving DecidableEq, Repr

namespace Scan

/-- The scan after one character. A closing bracket without an open one changes nothing. -/
def step (s : Scan) (c : Char) : Scan :=
  match s.quote with
  | some q =>
    if s.escaped then { s with escaped := false }
    else if c = '\\' then { s with escaped := true }
    else if c = q then { s with quote := none }
    else s
  | none =>
    if c = '\'' ∨ c = '"' then { s with quote := some c }
    else if c = '(' ∨ c = '[' ∨ c = '{' then { s with depth := s.depth + 1 }
    else if c = ')' ∨ c = ']' ∨ c = '}' then { s with depth := s.depth - 1 }
    else s

/-- The scan after a list of characters. -/
def run (s : Scan) (cs : List Char) : Scan := cs.foldl step s

/-- Whether a character is a comma outside brackets and string literals. -/
def isOuterComma (s : Scan) (c : Char) : Bool :=
  c == ',' && s.depth == 0 && s.quote.isNone

/-- Whether all brackets and string literals are closed. -/
def isClosed (s : Scan) : Bool := s.depth == 0 && s.quote.isNone

end Scan

/-- The pieces of an argument text between its outer commas; at least one. -/
def cut (s : Scan) : List Char → List (List Char)
  | [] => [[]]
  | c :: cs =>
    if s.isOuterComma c then [] :: cut s cs
    else
      match cut (s.step c) cs with
      | [] => [[c]]
      | piece :: rest => (c :: piece) :: rest

/-- The trimmed pieces of an argument text; a blank text has none. -/
def split (text : String) : List String :=
  if Text.isBlank text then []
  else (cut {} text.toList).map fun piece => String.ofList (Text.trimChars piece)

/-- The compact text of a list of values. -/
def compact (values : List String) : String := Text.joinWith ", " values

/-- The value of the last parameter: all pieces that are left and not empty, or the parameter's
name. -/
def lastValue (param : String) (pieces : List String) : String :=
  match pieces.filter (fun piece => piece ≠ "") with
  | [] => param
  | kept => compact kept

/-- One value for each parameter. A missing or empty piece gives way to the parameter's name;
surplus pieces go to the last parameter. -/
def fill : List String → List String → List String
  | [], _ => []
  | [param], pieces => [lastValue param pieces]
  | param :: params, [] => param :: fill params []
  | param :: params, piece :: pieces =>
    (if piece = "" then param else piece) :: fill params pieces

/-- The values that an argument text gives to the parameters. -/
def expand (text : String) (params : List String) : List String :=
  fill params (split text)

theorem length_fill (params pieces : List String) :
    (fill params pieces).length = params.length := by
  fun_induction fill params pieces <;> simp_all

end Blockwright.Arguments
