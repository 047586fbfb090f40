/-!
# Dictionaries

A `Dict` maps texts to values and lists its entries by increasing key. The order is part of the
type, so two dictionaries with the same entries are equal. `get?_insert` and `get?_erase` say what
the two changes do to look-ups.
-/

namespace Blockwright

/-- Entries with strictly increasing keys. -/
def Ascending {α : Type} (entries : List (String × α)) : Prop :=
  entries.Pairwise fun a b => a.1 < b.1

/-- A finite map from texts to values, listed by increasing key. -/
structure Dict (α : Type) where
  entries : List (String × α)
  ascending : Ascending entries
deriving DecidableEq

namespace Dict

variable {α : Type}

/-- The value that `key` has in a list of entries. -/
def lookup (key : String) : List (String × α) → Option α
  | [] => none
  | e :: rest => if e.1 = key then some e.2 else lookup key rest

/-- A list of entries with `key` set to `value`, at the place of `key` in the order. -/
def place (key : String) (value : α) : List (String × α) → List (String × α)
  | [] => [(key, value)]
  | e :: rest =>
    if key < e.1 then (key, value) :: e :: rest
    else if e.1 = key then (key, value) :: rest
    else e :: place key value rest

theorem fst_mem_place {key : String} {value : α} {entries : List (String × α)} {e : String × α}
    (h : e ∈ place key value entries) : e = (key, value) ∨ e ∈ entries := by
  induction entries with
  | nil => simpa [place] using h
  | cons a rest ih =>
    rw [place] at h
    split at h
    · simpa using h
    · split at h
      · rcases List.mem_cons.mp h with h | h
        · exact Or.inl h
        · exact Or.inr (List.mem_cons_of_mem _ h)
      · rcases List.mem_cons.mp h with h | h
        · exact Or.inr (h ▸ List.mem_cons_self ..)
        · exact (ih h).imp id (List.mem_cons_of_mem _)

theorem lt_of_not_lt_of_ne {a b : String} (h : ¬ a < b) (hne : b ≠ a) : b < a := by
  rcases Std.lt_trichotomy a b with h' | h' | h'
  · exact absurd h' h
  · exact absurd h'.symm hne
  · exact h'

theorem ascending_place {key : String} {value : α} {entries : List (String × α)}
    (h : Ascending entries) : Ascending (place key value entries) := by
  induction entries with
  | nil => simp [place, Ascending]
  | cons a rest ih =>
    have ⟨ha, hrest⟩ := List.pairwise_cons.mp h
    rw [place]
    split
    · next hlt =>
      refine List.pairwise_cons.mpr ⟨fun b hb => ?_, h⟩
      rcases List.mem_cons.mp hb with rfl | hb
      · exact hlt
      · exact String.lt_trans hlt (ha b hb)
    · next hlt =>
      split
      · next heq => exact List.pairwise_cons.mpr ⟨fun b hb => heq ▸ ha b hb, hrest⟩
      · next hne =>
        refine List.pairwise_cons.mpr ⟨fun b hb => ?_, ih hrest⟩
        rcases fst_mem_place hb with rfl | hb
        · exact lt_of_not_lt_of_ne hlt hne
        · exact ha b hb

/-- The dictionary with no entry. -/
def empty : Dict α := ⟨[], List.Pairwise.nil⟩

instance : Inhabited (Dict α) := ⟨empty⟩

/-- The value of `key`, if it has one. -/
def get? (d : Dict α) (key : String) : Option α := lookup key d.entries

/-- Sets `key` to `value`. -/
def insert (d : Dict α) (key : String) (value : α) : Dict α :=
  ⟨place key value d.entries, ascending_place d.ascending⟩

/-- Removes `key` and its value. -/
def erase (d : Dict α) (key : String) : Dict α :=
  ⟨d.entries.filter (fun e => e.1 != key), d.ascending.filter _⟩

/-- The values by increasing key. -/
def values (d : Dict α) : List α := d.entries.map Prod.snd

theorem lookup_place (key key' : String) (value : α) (entries : List (String × α)) :
    lookup key' (place key value entries) =
      if key = key' then some value else lookup key' entries := by
  induction entries with
  | nil => simp [place, lookup]
  | cons a rest ih => grind [place, lookup]

theorem get?_insert (d : Dict α) (key key' : String) (value : α) :
    (d.insert key value).get? key' = if key = key' then some value else d.get? key' :=
  lookup_place key key' value d.entries

theorem lookup_filter (key key' : String) (entries : List (String × α)) :
    lookup key' (entries.filter (fun e => e.1 != key)) =
      if key = key' then none else lookup key' entries := by
  induction entries with
  | nil => simp [lookup]
  | cons a rest ih => grind [lookup]

theorem get?_erase (d : Dict α) (key key' : String) :
    (d.erase key).get? key' = if key = key' then none else d.get? key' :=
  lookup_filter key key' d.entries

@[simp] theorem get?_empty (key : String) : (empty : Dict α).get? key = none := rfl

end Dict

end Blockwright
