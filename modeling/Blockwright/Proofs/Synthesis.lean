import Blockwright.Proofs.Registration

/-!
# Synthesis that is done again

Which type a member claims depends on the registry that it finds, and this one changes with every
member. But a claim that has been made stands: the member finds its own type under any later registry
(`Synthesis.claimType_again`), where its block is registered by then. So modules can be added again at
any time after, with the same categories, and the registry stays as it is
(`Synthesis.addModules_of_within`). Main statement: `Synthesis.addModules_idempotent`.
-/

namespace Blockwright

/-! ### What a member registers -/

theorem Registry.lookup?_register_self (r : Registry) (d : Definition) :
    (r.register d).lookup? d.typeId = some ((r.lookup? d.typeId).getD d) := by
  rw [lookup?_register, if_pos rfl]
  cases r.lookup? d.typeId <;> rfl

theorem Registry.register_of_lookup? {r : Registry} {d e : Definition}
    (h : r.lookup? d.typeId = some e) : r.register d = r := by
  rw [register, dif_neg (by rw [h]; exact Option.some_ne_none e)]

namespace Synthesis

namespace Member

theorem schema_keeps (m : Member) (typeId : String) :
    (m.schema typeId).typeId = typeId ∧ (m.schema typeId).shape = m.shape := by
  rw [schema]
  split
  · rw [CallRule.schema_eq]; exact ⟨rfl, rfl⟩
  · exact ⟨rfl, rfl⟩

theorem typeId_definition (m : Member) (typeId moduleName : String) :
    (m.definition typeId moduleName).typeId = typeId :=
  (m.schema_keeps typeId).1

theorem shape_definition (m : Member) (typeId moduleName : String) :
    (m.definition typeId moduleName).schema.shape = m.shape :=
  (m.schema_keeps typeId).2

/-- The rule of a member writes the member. -/
def Named (m : Member) : Prop := isRuleFor m.target m.rule = true

end Member

theorem named_of_mem_members {d : ModuleDescriptor} {limits : SynthesisLimits} {m : Member}
    (h : m ∈ members d limits) : m.Named := by
  rw [Member.Named, Member.target]
  rcases rule_of_mem_members h with ⟨call, hrule⟩ | ⟨text, hrule⟩
  · simp [hrule, isRuleFor]
  · simp [hrule, isRuleFor]

variable {digest : String → String} {limits : SynthesisLimits} {r r' : Registry} {name : String}
  {m : Member}

/-! ### Claims -/

theorem claimType_of_lookup?_eq {base : String} (h : r'.lookup? base = r.lookup? base)
    (target : String) (shape : Shape) :
    claimType digest r' base target shape = claimType digest r base target shape := by
  rw [claimType, claimType, h]

theorem claimType_of_free {base : String} (h : r.lookup? base = none) (target : String)
    (shape : Shape) : claimType digest r base target shape = base := by
  rw [claimType, h]

theorem claimType_of_own {base target : String} {shape : Shape} {d : Definition}
    (h : r.lookup? base = some d) (hrule : isRuleFor target d.rule = true)
    (hshape : d.schema.shape = shape) : claimType digest r base target shape = base := by
  rw [claimType, h]
  exact if_pos ⟨hrule, hshape⟩

/-- A member claims the same type again, once its block is registered. -/
theorem claimType_again (hm : m.Named)
    (h : (r.register (m.definition (claimType digest r m.base m.target m.shape) name)).Within r') :
    claimType digest r' m.base m.target m.shape = claimType digest r m.base m.target m.shape := by
  cases hbase : r.lookup? m.base with
  | none =>
    -- the type was free, so by now the member's own block holds it
    rw [claimType_of_free hbase] at h ⊢
    have hown : r'.lookup? m.base = some (m.definition m.base name) := by
      refine h m.base _ ?_
      rw [Registry.lookup?_register, hbase, m.typeId_definition, if_pos rfl]
      rfl
    exact claimType_of_own hown hm (m.shape_definition m.base name)
  | some d =>
    -- the type was taken, and the same block still has it
    refine claimType_of_lookup?_eq ?_ m.target m.shape
    rw [hbase]
    exact h m.base d (Registry.within_register r _ m.base d hbase)

/-! ### Members and modules -/

theorem addMember_again (hm : m.Named) (category : Category)
    (h : (addMember digest name (r, category) m).1.Within r') :
    addMember digest name (r', category) m =
      (r', (addMember digest name (r, category) m).2) := by
  have hclaim := claimType_again hm h
  have hheld := h _ _ (Registry.lookup?_register_self r _)
  rw [addMember, addMember]
  dsimp only
  rw [hclaim, Registry.register_of_lookup? hheld]

theorem addMembers_again {members : List Member} (hnamed : ∀ m ∈ members, m.Named)
    (r : Registry) (category : Category)
    (h : (members.foldl (addMember digest name) (r, category)).1.Within r') :
    members.foldl (addMember digest name) (r', category) =
      (r', (members.foldl (addMember digest name) (r, category)).2) := by
  induction members generalizing r category with
  | nil => rfl
  | cons m members ih =>
    obtain ⟨hm, hrest⟩ := List.forall_mem_cons.mp hnamed
    rw [List.foldl_cons] at h ⊢
    have hlater := Registry.within_addMembers digest name members (addMember digest name (r, category) m)
    rw [addMember_again hm category (hlater.trans h)]
    exact ih hrest _ _ h

/-- Modules can be added again to any registry that still holds their blocks: their categories are the
same, and the registry does not change. -/
theorem addModules_of_within {ms : List ModuleDescriptor}
    (h : (addModules digest limits r ms).1.Within r') :
    addModules digest limits r' ms = (r', (addModules digest limits r ms).2) := by
  induction ms generalizing r with
  | nil => rfl
  | cons m ms ih =>
    rw [addModules] at h ⊢
    rw [addModules]
    split
    · next husable =>
      rw [if_pos husable] at h
      have hlater := Registry.within_addModules digest limits (addModule digest limits r m).1 ms
      have hmodule : addModule digest limits r' m = (r', (addModule digest limits r m).2) :=
        addMembers_again (fun x hx => named_of_mem_members hx) r _ (hlater.trans h)
      rw [hmodule]
      dsimp only
      rw [ih h]
    · next hunusable =>
      rw [if_neg hunusable] at h
      exact ih h

/-- To add modules twice is to add them once, whatever was registered before, however the types of
their members clash and whatever the digest makes of them. -/
theorem addModules_idempotent (digest : String → String) (limits : SynthesisLimits)
    (registry : Registry) (ms : List ModuleDescriptor) :
    addModules digest limits (addModules digest limits registry ms).1 ms =
      addModules digest limits registry ms :=
  addModules_of_within fun _ _ h => h

-- Two members whose types clash, of which the second is told apart by its digest.
example : (addModules (fun t => t) {} Registry.empty
    [{ name := "a_b", functions := [{ name := "c" }] },
      { name := "a", functions := [{ name := "b_c" }] }]).2.map Category.types =
    [["import_a_b_c", "import_a_b_c_stmt"],
      ["import_a_b_c_a.b_c:Ex", "import_a_b_c_stmt_a.b_c:St"]] := by
  decide +kernel

end Synthesis

end Blockwright
