import Blockwright.Json.Basic

/-!
# Records in JSON

A record is written as an object with a member for each field, or as an array of its fields in
order. A field may have several names, of which at most one is used. Members of other names are
skipped over.
-/

namespace Blockwright.Json

/-- The value of the only member that has one of the names. -/
def field? (names : List String) (members : List (Option String × Json)) : Option (Option Json) :=
  match members.filter fun m => (m.1.map names.contains).getD false with
  | [] => some none
  | [m] => some (some m.2)
  | _ => none

/-- The first `count` items, each of them optional. -/
def padTo : Nat → List Json → List (Option Json)
  | 0, _ => []
  | count + 1, [] => none :: padTo count []
  | count + 1, v :: vs => some v :: padTo count vs

/-- The fields of a record, each given by its names. -/
def fields? (names : List (List String)) : Json → Option (List (Option Json))
  | .array items => if items.length ≤ names.length then some (padTo names.length items) else none
  | .object members =>
    if members.all fun m => m.1.isSome then names.mapM fun ns => field? ns members else none
  | _ => none

/-- A field that must be there. -/
def required? {α : Type} (read : Json → Option α) (field : Option Json) : Option α :=
  field.bind read

/-- A field that has a value of its own if it is missing. -/
def orElse? {α : Type} (missing : α) (read : Json → Option α) : Option Json → Option α
  | none => some missing
  | some v => read v

end Blockwright.Json
