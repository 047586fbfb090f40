import Blockwright.Palette
import Blockwright.Proofs.Parts
import Mathlib.Data.List.Nodup

/-!
# What categories list

Every category comes about by types that are added one after the other and never twice. A stock
category has the types of the registry that name it (`Palette.sectionOf_eq`), the category of custom
blocks has their callers (`CustomBlock.category_eq`), and what modules register beyond what was there is
just what their categories list (`Synthesis.mem_typeIds_addModules`).
-/

namespace Blockwright

/-! ### Types one after the other -/

namespace Category

variable {c : Category} {t x : String}

theorem mem_push : x ∈ (c.push t).types ↔ x ∈ c.types ∨ x = t := by
  unfold push
  split
  · next hmem =>
    refine ⟨.inl, ?_⟩
    rintro (h | rfl)
    · exact h
    · exact hmem
  · simp

theorem nodup_push (h : c.types.Nodup) (t : String) : (c.push t).types.Nodup := by
  unfold push
  split
  · exact h
  · next hnew =>
    rw [List.nodup_append]
    refine ⟨h, List.nodup_singleton t, fun x hx y hy hxy => hnew ?_⟩
    rwa [← List.mem_singleton.mp hy, ← hxy]

theorem name_push (c : Category) (t : String) : (c.push t).name = c.name := by
  unfold push
  split
  · rfl
  · rfl

/-- Adds types one after the other. -/
def pushAll (c : Category) (ts : List String) : Category := ts.foldl push c

theorem mem_pushAll {ts : List String} : x ∈ (c.pushAll ts).types ↔ x ∈ c.types ∨ x ∈ ts := by
  induction ts generalizing c with
  | nil => simp [pushAll]
  | cons t ts ih =>
    rw [pushAll, List.foldl_cons, ← pushAll, ih, mem_push, List.mem_cons, or_assoc]

theorem nodup_pushAll (h : c.types.Nodup) (ts : List String) : (c.pushAll ts).types.Nodup := by
  induction ts generalizing c with
  | nil => exact h
  | cons t ts ih => exact ih (nodup_push h t)

end Category

/-! ### Stock categories and custom blocks -/

namespace Palette

theorem sectionOf_eq (r : Registry) (name colour : String) :
    sectionOf r name colour = Category.pushAll { name, colour }
      ((r.definitions.filter fun d => d.schema.category = name).map Definition.typeId) := by
  rw [Category.pushAll, List.foldl_map, List.foldl_filter]
  simp only [decide_eq_true_eq]
  rfl

theorem mem_sectionOf {r : Registry} {name colour x : String} :
    x ∈ (sectionOf r name colour).types ↔
      ∃ d ∈ r.definitions, d.schema.category = name ∧ d.typeId = x := by
  rw [sectionOf_eq, Category.mem_pushAll]
  simp [and_assoc]

theorem eq_sectionOf_of_mem_stock {r : Registry} {c : Category} (h : c ∈ stock r) :
    ∃ name colour, c = sectionOf r name colour := by
  obtain ⟨s, -, rfl⟩ := List.mem_map.mp (List.mem_filter.mp h).1
  exact ⟨s.1, s.2, rfl⟩

theorem listed_of_mem_sections {r : Registry} {d : Definition} (hd : d ∈ r.definitions)
    (hcategory : d.schema.category ∈ sections.map Prod.fst) :
    ∃ c ∈ stock r, d.typeId ∈ c.types := by
  obtain ⟨s, hs, hname⟩ := List.mem_map.mp hcategory
  have hlisted : d.typeId ∈ (sectionOf r s.1 s.2).types := mem_sectionOf.mpr ⟨d, hd, hname.symm, rfl⟩
  refine ⟨_, List.mem_filter.mpr ⟨List.mem_map.mpr ⟨s, hs, rfl⟩, ?_⟩, hlisted⟩
  simp [List.ne_nil_of_mem hlisted]

theorem category_mem_sections :
    ∀ d ∈ Catalogue.all, d.schema.category ∈ sections.map Prod.fst := by decide +kernel

end Palette

namespace CustomBlock

theorem category_eq (cs : List CustomBlock) :
    category cs = Category.pushAll { name := categoryName, colour := categoryColour }
      (cs.flatMap fun c => [c.callType, c.exprType]) := by
  rw [Category.pushAll, List.foldl_flatMap]
  rfl

theorem mem_category {cs : List CustomBlock} {x : String} :
    x ∈ (category cs).types ↔ ∃ c ∈ cs, x = c.callType ∨ x = c.exprType := by
  rw [category_eq, Category.mem_pushAll]
  simp

end CustomBlock

/-! ### Modules -/

theorem Registry.mem_typeIds_register {r : Registry} {d : Definition} {x : String} :
    x ∈ (r.register d).typeIds ↔ x ∈ r.typeIds ∨ x = d.typeId := by
  unfold register
  split
  · simp [typeIds]
  · next hknown =>
    refine ⟨.inl, ?_⟩
    rintro (h | rfl)
    · exact h
    · by_contra hnot
      exact hknown ((r.lookup?_eq_none_iff d.typeId).mpr hnot)

namespace Synthesis

variable {digest : String → String} {limits : SynthesisLimits} {r : Registry} {name x : String}

theorem types_addMembers (members : List Member) (s : Registry × Category) :
    ∀ t ∈ s.2.types, t ∈ (members.foldl (addMember digest name) s).2.types := by
  induction members generalizing s with
  | nil => exact fun _ h => h
  | cons m members ih => exact fun t h => ih _ t (Category.mem_push.mpr (.inl h))

theorem name_addMembers (members : List Member) (s : Registry × Category) :
    (members.foldl (addMember digest name) s).2.name = s.2.name := by
  induction members generalizing s with
  | nil => rfl
  | cons m members ih =>
    rw [List.foldl_cons, ih]
    exact Category.name_push s.2 _

theorem nodup_addMembers (members : List Member) {s : Registry × Category} (h : s.2.types.Nodup) :
    (members.foldl (addMember digest name) s).2.types.Nodup := by
  induction members generalizing s with
  | nil => exact h
  | cons m members ih => exact ih (Category.nodup_push h _)

-- A member adds the same type to the registry and to the category.
theorem mem_typeIds_addMembers (members : List Member) {s : Registry × Category}
    (hs : ∀ t ∈ s.2.types, t ∈ s.1.typeIds) :
    x ∈ (members.foldl (addMember digest name) s).1.typeIds ↔
      x ∈ s.1.typeIds ∨ x ∈ (members.foldl (addMember digest name) s).2.types := by
  induction members generalizing s with
  | nil => exact ⟨.inl, fun h => h.elim id (hs x)⟩
  | cons m members ih =>
    have hregistered : ∀ t, t ∈ (addMember digest name s m).1.typeIds ↔
        t ∈ s.1.typeIds ∨ t = claimType digest s.1 m.base m.target m.shape := by
      intro t
      have h := Registry.mem_typeIds_register (r := s.1) (x := t)
        (d := m.definition (claimType digest s.1 m.base m.target m.shape) name)
      rwa [m.typeId_definition] at h
    have hlisted : ∀ t, t ∈ (addMember digest name s m).2.types ↔
        t ∈ s.2.types ∨ t = claimType digest s.1 m.base m.target m.shape :=
      fun t => Category.mem_push
    have hkept : ∀ t ∈ (addMember digest name s m).2.types,
        t ∈ (members.foldl (addMember digest name) (addMember digest name s m)).2.types :=
      types_addMembers members _
    rw [List.foldl_cons, ih fun t ht => ?_, hregistered]
    · constructor
      · rintro ((h | rfl) | h)
        · exact .inl h
        · exact .inr (hkept _ ((hlisted _).mpr (.inr rfl)))
        · exact .inr h
      · rintro (h | h)
        · exact .inl (.inl h)
        · exact .inr h
    · rcases (hlisted t).mp ht with ht | rfl
      · exact (hregistered t).mpr (.inl (hs t ht))
      · exact (hregistered _).mpr (.inr rfl)

theorem mem_typeIds_addModules (ms : List ModuleDescriptor) :
    x ∈ (addModules digest limits r ms).1.typeIds ↔
      x ∈ r.typeIds ∨ ∃ c ∈ (addModules digest limits r ms).2, x ∈ c.types := by
  induction ms generalizing r with
  | nil => simp [addModules_nil]
  | cons m ms ih =>
    by_cases husable : m.isUsable = true
    · have hmodule : x ∈ (addModule digest limits r m).1.typeIds ↔
          x ∈ r.typeIds ∨ x ∈ (addModule digest limits r m).2.types :=
        mem_typeIds_addMembers (members m limits) (by simp)
      rw [addModules_cons_of_usable husable, ih, hmodule]
      simp [or_assoc]
    · rw [addModules_cons_of_not_usable husable, ih]

theorem nodup_addModules (ms : List ModuleDescriptor) :
    ∀ c ∈ (addModules digest limits r ms).2, c.types.Nodup := by
  induction ms generalizing r with
  | nil => simp [addModules_nil]
  | cons m ms ih =>
    by_cases husable : m.isUsable = true
    · rw [addModules_cons_of_usable husable]
      exact List.forall_mem_cons.mpr ⟨nodup_addMembers _ List.nodup_nil, ih⟩
    · rw [addModules_cons_of_not_usable husable]
      exact ih

end Synthesis

end Blockwright
