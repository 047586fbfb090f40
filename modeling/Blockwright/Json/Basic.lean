import Blockwright.Decimal.Range

/-!
# JSON values

JSON values as they are written. A string whose escapes spell no text, because a surrogate stands
alone, is kept as `none`; an object keeps all its members in order, with repeated names. Whether
such a value is acceptable depends on what it is read for (`Json.isSound`).
-/

namespace Blockwright

/-- A JSON value. -/
inductive Json
  | null
  | bool (value : Bool)
  /-- A number, and whether it was written as digits alone, with or without a sign. -/
  | number (value : Decimal) (isWhole : Bool)
  | string (text : Option String)
  | array (items : List Json)
  | object (members : List (Option String × Json))

namespace Json

/-- A string. -/
def text (s : String) : Json := .string (some s)

/-- A natural number. -/
def ofNat (n : Nat) : Json := .number ⟨false, n, 0⟩ true

/-- An object with the given members. -/
def record (members : List (String × Json)) : Json :=
  .object (members.map fun m => (some m.1, m.2))

/-- The text of a string. -/
def text? : Json → Option String
  | .string s => s
  | _ => none

/-- The value of a Boolean. -/
def bool? : Json → Option Bool
  | .bool b => some b
  | _ => none

/-- The value of a number that is written as digits alone and fits 64 bits. -/
def word? : Json → Option Nat
  | .number d isWhole =>
    if isWhole ∧ !d.negative ∧ d.coefficient < Nat.pow 2 64 then some d.coefficient else none
  | _ => none

/-- The items of an array, each read by `read`. -/
def list? {α : Type} (read : Json → Option α) : Json → Option (List α)
  | .array items => items.mapM read
  | _ => none

/-- The last member of that name. -/
def member? (name : String) : Json → Option Json
  | .object members => (members.reverse.find? fun m => m.1 = some name).map Prod.snd
  | _ => none

mutual

/-- Whether all numbers are in range, all strings are texts, and arrays and objects are nested at
most `depth` deep. -/
def isSoundTo (depth : Nat) : Json → Bool
  | .null => true
  | .bool _ => true
  | .number d _ => d.isInRange
  | .string s => s.isSome
  | .array items => 0 < depth && itemsSoundTo (depth - 1) items
  | .object members => 0 < depth && membersSoundTo (depth - 1) members

/-- The same of all items. -/
def itemsSoundTo (depth : Nat) : List Json → Bool
  | [] => true
  | v :: vs => v.isSoundTo depth && itemsSoundTo depth vs

/-- The same of all members and their names. -/
def membersSoundTo (depth : Nat) : List (Option String × Json) → Bool
  | [] => true
  | (name, v) :: ms => name.isSome && v.isSoundTo depth && membersSoundTo depth ms

end

/-- Whether a value can be taken as it is: numbers in range, strings that are texts, and nesting
below 128. -/
def isSound (v : Json) : Bool := v.isSoundTo 127

end Json

end Blockwright
