import Blockwright.Fault
import Blockwright.Rule

/-!
# The registry of block types

Types are only ever added, and the first definition of a type stays. `lookup?_register` says what a
registration changes.
-/

namespace Blockwright

/-- The types of blocks that can be used, in the order of their registration. -/
structure Registry where
  definitions : List Definition
  distinct : (definitions.map Definition.typeId).Nodup

namespace Registry

/-- The registry without types. -/
def empty : Registry := ⟨[], by simp⟩

instance : Inhabited Registry := ⟨empty⟩

/-- The definition of a type, if it is registered. -/
def lookup? (r : Registry) (typeId : String) : Option Definition :=
  r.definitions.find? fun d => d.typeId = typeId

/-- The definition of a type. -/
def lookup (r : Registry) (typeId : String) : Except Fault Definition :=
  match r.lookup? typeId with
  | some d => .ok d
  | none => .error (.unknownType typeId)

/-- Whether a type is registered. -/
def contains (r : Registry) (typeId : String) : Bool := (r.lookup? typeId).isSome

theorem lookup?_eq_none_iff (r : Registry) (typeId : String) :
    r.lookup? typeId = none ↔ typeId ∉ r.definitions.map Definition.typeId := by
  simp [lookup?, List.find?_eq_none]

/-- Adds a type, unless it is registered already. -/
def register (r : Registry) (d : Definition) : Registry :=
  if h : r.lookup? d.typeId = none then
    { definitions := r.definitions ++ [d]
      distinct := by
        have hnot := (r.lookup?_eq_none_iff d.typeId).mp h
        rw [List.map_append, List.nodup_append]
        refine ⟨r.distinct, by simp, fun a ha b hb => ?_⟩
        simp only [List.map_cons, List.map_nil, List.mem_singleton] at hb
        exact fun hab => hnot (hb ▸ hab ▸ ha) }
  else r

/-- Adds types one after the other. -/
def registerAll (r : Registry) (ds : List Definition) : Registry := ds.foldl register r

/-- The number of types. -/
def size (r : Registry) : Nat := r.definitions.length

/-- The types in the order of their registration. -/
def typeIds (r : Registry) : List String := r.definitions.map Definition.typeId

/-- A registration defines its type if it was unknown, and changes nothing else. -/
theorem lookup?_register (r : Registry) (d : Definition) (typeId : String) :
    (r.register d).lookup? typeId =
      (r.lookup? typeId).or (if d.typeId = typeId then some d else none) := by
  unfold register
  split
  · by_cases h : d.typeId = typeId <;> simp [lookup?, List.find?_append, h]
  · next h =>
    by_cases hd : d.typeId = typeId
    · subst hd
      obtain ⟨e, he⟩ := Option.ne_none_iff_exists'.mp h
      simp [he]
    · simp [hd]

end Registry

end Blockwright
