import Blockwright.Proofs.Toolboxes
import Mathlib.Data.List.Nodup

/-!
# Modules that come more than once

Modules come into a toolbox in lists, and a list that brings a name again after an earlier list adds
nothing under it. Inside one list nothing is compared: the modules of a name that the toolbox does not
have yet are all added, each with a category of its own. So under every name the toolbox keeps what the
first list with that name has under it (`Toolbox.after_distinct_iff`), and a list that has a new name
twice leaves it there twice (`Toolbox.repeated_in_one_list`).
-/

namespace Blockwright

namespace ModuleDescriptor

/-- The modules of that name. -/
def named (name : String) (ms : List ModuleDescriptor) : List ModuleDescriptor :=
  ms.filter fun m => m.name = name

/-- The modules of that name in the first list that has one. -/
def firstNamed (name : String) : List (List ModuleDescriptor) → List ModuleDescriptor
  | [] => []
  | ms :: lists => if named name ms = [] then firstNamed name lists else named name ms

variable {name : String} {ms ns : List ModuleDescriptor}

theorem named_append : named name (ms ++ ns) = named name ms ++ named name ns := List.filter_append ..

theorem named_eq_nil_iff : named name ms = [] ↔ ∀ m ∈ ms, m.name ≠ name := by simp [named]

theorem count_map_name (name : String) (ms : List ModuleDescriptor) :
    (ms.map ModuleDescriptor.name).count name = (named name ms).length := by
  rw [List.count, List.countP_map, List.countP_eq_length_filter, named]
  congr 1

theorem nodup_names_iff (ms : List ModuleDescriptor) :
    (ms.map ModuleDescriptor.name).Nodup ↔ ∀ name, (named name ms).length ≤ 1 := by
  rw [List.nodup_iff_count_le_one]
  constructor
  · intro h name
    rw [← count_map_name]
    exact h name
  · intro h name
    rw [count_map_name]
    exact h name

end ModuleDescriptor

open ModuleDescriptor

/-- Each usable module has one category, and it bears the name of the module. -/
theorem Synthesis.names_addModules (digest : String → String) (limits : SynthesisLimits)
    (r : Registry) (ms : List ModuleDescriptor) :
    (addModules digest limits r ms).2.map Category.name =
      (ms.filter ModuleDescriptor.isUsable).map ModuleDescriptor.name := by
  induction ms generalizing r with
  | nil => rfl
  | cons m ms ih =>
    by_cases husable : m.isUsable = true
    · rw [addModules_cons_of_usable husable, List.filter_cons_of_pos husable, List.map_cons,
        List.map_cons, ih]
      congr 1
      exact name_addMembers (members m limits) _
    · rw [addModules_cons_of_not_usable husable, List.filter_cons_of_neg husable, ih]

namespace Toolbox

/-- The lists of modules that the steps bring. -/
def moduleLists : List Step → List (List ModuleDescriptor)
  | [] => []
  | .customBlocks _ :: steps => moduleLists steps
  | .modules ms :: steps => ms :: moduleLists steps

/-- A list adds all that it has under a name, or nothing if the toolbox has the name. -/
theorem named_addModules (t : Toolbox) (ms : List ModuleDescriptor) (name : String) :
    named name (t.addModules ms).modules =
      if named name t.modules = [] then named name ms else named name t.modules := by
  show named name (t.modules ++ ms.filter fun m => !t.modules.any fun known => known.name = m.name) = _
  rw [named_append]
  split
  · next hnew =>
    rw [hnew, List.nil_append, named, named, List.filter_filter]
    refine List.filter_congr fun m _ => ?_
    by_cases hm : m.name = name
    · subst hm
      simpa using named_eq_nil_iff.mp hnew
    · simp [hm]
  · next hknown =>
    rw [List.append_right_eq_self, named_eq_nil_iff]
    intro m hm hname
    rw [List.mem_filter] at hm
    refine hknown (named_eq_nil_iff.mpr fun known hmem hsame => ?_)
    have hfresh : ∀ known ∈ t.modules, known.name ≠ m.name := by simpa using hm.2
    exact hfresh known hmem (hsame.trans hname.symm)

theorem named_after (limits : SynthesisLimits) (steps : List Step) (name : String) :
    named name (after limits steps).modules = firstNamed name (moduleLists steps) := by
  have hrun : ∀ t : Toolbox, named name (steps.foldl perform t).modules =
      if named name t.modules = [] then firstNamed name (moduleLists steps)
      else named name t.modules := by
    induction steps with
    | nil =>
      intro t
      show named name t.modules = if named name t.modules = [] then [] else named name t.modules
      split
      · next hnew => exact hnew
      · rfl
    | cons step steps ih =>
      intro t
      rw [List.foldl_cons, ih]
      cases step with
      | customBlocks cs => simp only [perform, modules_addCustomBlocks, moduleLists]
      | modules ms =>
        simp only [perform, named_addModules, moduleLists, firstNamed]
        by_cases hnew : named name t.modules = []
        · simp only [if_pos hnew]
        · simp only [if_neg hnew]
  exact hrun _

theorem names_moduleCategories (limits : SynthesisLimits) (steps : List Step) :
    (after limits steps).moduleCategories.map Category.name =
      ((after limits steps).modules.filter ModuleDescriptor.isUsable).map ModuleDescriptor.name := by
  rw [(after_composed limits steps).moduleCategories_eq]
  exact Synthesis.names_addModules ..

/-- Under each name the toolbox keeps what the first list with that name has under it. So its modules
have distinct names just if no list brings a new name twice, and its categories have distinct names
just if no list brings a new name twice with something to offer. -/
theorem after_distinct_iff (limits : SynthesisLimits) (steps : List Step) :
    let t := after limits steps
    let kept := fun name => firstNamed name (moduleLists steps)
    (∀ name, named name t.modules = kept name) ∧
    ((t.modules.map ModuleDescriptor.name).Nodup ↔ ∀ name, (kept name).length ≤ 1) ∧
    ((t.moduleCategories.map Category.name).Nodup ↔
      ∀ name, ((kept name).filter ModuleDescriptor.isUsable).length ≤ 1) := by
  intro t kept
  have hkept : ∀ name, named name t.modules = kept name := named_after limits steps
  refine ⟨hkept, ?_, ?_⟩
  · rw [nodup_names_iff]
    exact forall_congr' fun name => by rw [hkept]
  · rw [names_moduleCategories, nodup_names_iff]
    refine forall_congr' fun name => ?_
    rw [← hkept, named, named, List.filter_comm]

/-- A module with one function. -/
def plainModule : ModuleDescriptor := { name := "m", functions := [{ name := "f" }] }

/-- A list that has a module twice leaves it in the toolbox twice, with two categories. -/
theorem repeated_in_one_list :
    let t := after {} [.modules [plainModule, plainModule]]
    ¬(t.modules.map ModuleDescriptor.name).Nodup ∧ ¬(t.moduleCategories.map Category.name).Nodup := by
  intro t
  refine ⟨?_, ?_⟩
  · rw [nodup_names_iff]
    intro h
    have hlength := h "m"
    rw [named_after] at hlength
    exact absurd hlength (by decide)
  · rw [names_moduleCategories, nodup_names_iff]
    intro h
    have hlength := h "m"
    rw [named, List.filter_comm, ← named, named_after] at hlength
    exact absurd hlength (by decide)

end Toolbox

end Blockwright
