import Blockwright.Proofs.Synthesis

/-!
# Parts of a registry

The type of a block tells by its first letters where the block comes from: a caller of a custom
block, a member of a module, or the stock catalogue. So a registry falls into parts
(`Registry.part`), and what is registered in one part cannot be seen in another. Modules in
particular look up and register types of their own part alone: from registries that agree on a part
with all types of members they make the same categories and registries that agree on that part
again (`Synthesis.addModules_alike`), and any part without such types stays as it is
(`Synthesis.part_addModules`).
-/

namespace Blockwright

/-! ### The first letters of a type -/

/-- Whether a type is for callers of custom blocks. -/
def isCallerType (t : String) : Bool := t.startsWith "myblock_"

/-- Whether a type is for members of modules. -/
def isMemberType (t : String) : Bool := t.startsWith "import_"

section Leads

variable {lead t : String}

theorem startsWith_append (lead t : String) : (lead ++ t).startsWith lead = true := by
  rw [String.startsWith_string_iff, String.toList_append]
  exact List.prefix_append _ _

theorem eq_append_of_startsWith (h : t.startsWith lead = true) : ∃ rest, t = lead ++ rest := by
  rw [String.startsWith_string_iff] at h
  obtain ⟨rest, hrest⟩ := h
  refine ⟨String.ofList rest, String.toList_inj.mp ?_⟩
  rw [String.toList_append, String.toList_ofList, hrest]

theorem startsWith_append_of_startsWith (h : t.startsWith lead = true) (rest : String) :
    (t ++ rest).startsWith lead = true := by
  obtain ⟨u, rfl⟩ := eq_append_of_startsWith h
  rw [String.append_assoc]
  exact startsWith_append lead (u ++ rest)

theorem prefix_or_prefix_of_startsWith {lead' : String} (h : t.startsWith lead = true)
    (h' : t.startsWith lead' = true) : lead.toList <+: lead'.toList ∨ lead'.toList <+: lead.toList :=
  List.prefix_or_prefix_of_prefix (String.startsWith_string_iff.mp h)
    (String.startsWith_string_iff.mp h')

theorem isCallerType_of_isMemberType (h : isMemberType t = true) : isCallerType t = false := by
  rw [Bool.eq_false_iff]
  intro hcaller
  rcases prefix_or_prefix_of_startsWith h hcaller with h | h
  · exact absurd h (by decide)
  · exact absurd h (by decide)

theorem isMemberType_of_isCallerType (h : isCallerType t = true) : isMemberType t = false := by
  cases hmember : isMemberType t with
  | false => rfl
  | true => rw [isCallerType_of_isMemberType hmember] at h; exact h.symm

end Leads

/-- The first byte of every stock type. -/
theorem Catalogue.head_typeId :
    ∀ d ∈ Catalogue.all, d.typeId.toByteArray.data.toList.head? = some 112 := by decide +kernel

theorem Catalogue.not_startsWith {d : Definition} (hd : d ∈ Catalogue.all) {lead : String} {b : UInt8}
    (hb : lead.toByteArray.data.toList.head? = some b) (hne : b ≠ 112) :
    d.typeId.startsWith lead = false := by
  rw [Bool.eq_false_iff]
  intro hlead
  obtain ⟨rest, hrest⟩ := eq_append_of_startsWith hlead
  have hhead := Catalogue.head_typeId d hd
  rw [hrest, String.toByteArray_append, ByteArray.data_append, Array.toList_append, List.head?_append,
    hb] at hhead
  exact hne (Option.some.inj hhead)

theorem Catalogue.isCallerType_typeId {d : Definition} (hd : d ∈ Catalogue.all) :
    isCallerType d.typeId = false :=
  not_startsWith hd (b := 109) (by decide +kernel) (by decide)

theorem Catalogue.isMemberType_typeId {d : Definition} (hd : d ∈ Catalogue.all) :
    isMemberType d.typeId = false :=
  not_startsWith hd (b := 105) (by decide +kernel) (by decide)

/-! ### Parts -/

namespace Registry

variable {r r' : Registry} {p : String → Bool} {d : Definition} {t : String}

theorem typeId_of_lookup? (h : r.lookup? t = some d) : d.typeId = t := by
  rw [lookup?] at h
  simpa using List.find?_some h

/-- The definitions of the types with a property, in the order of their registration. -/
def part (r : Registry) (p : String → Bool) : List Definition :=
  r.definitions.filter fun d => p d.typeId

theorem mem_part : d ∈ r.part p ↔ d ∈ r.definitions ∧ p d.typeId = true := by
  simp [part]

theorem lookup?_eq_find?_part (hp : p t = true) :
    r.lookup? t = (r.part p).find? fun d => d.typeId = t := by
  rw [lookup?, part, List.find?_filter]
  refine congrArg (r.definitions.find? ·) (funext fun d => ?_)
  by_cases hd : d.typeId = t
  · subst hd
    simp [hp]
  · simp [hd]

theorem lookup?_of_part_eq (h : r.part p = r'.part p) (hp : p t = true) :
    r.lookup? t = r'.lookup? t := by
  rw [lookup?_eq_find?_part hp, lookup?_eq_find?_part hp, h]

theorem part_register_of_free (hp : p d.typeId = true) (hfree : r.lookup? d.typeId = none) :
    (r.register d).part p = r.part p ++ [d] := by
  rw [register, dif_pos hfree]
  simp [part, hp]

theorem part_register_of_not (hp : p d.typeId = false) : (r.register d).part p = r.part p := by
  unfold register
  split
  · simp [part, hp]
  · rfl

theorem part_registerAll_of_not {ds : List Definition} (hp : ∀ d ∈ ds, p d.typeId = false) :
    (r.registerAll ds).part p = r.part p := by
  induction ds generalizing r with
  | nil => rfl
  | cons d ds ih =>
    obtain ⟨hd, hrest⟩ := List.forall_mem_cons.mp hp
    rw [registerAll, List.foldl_cons, ← registerAll, ih hrest, part_register_of_not hd]

theorem registerAll_of_known {ds : List Definition} (h : ∀ d ∈ ds, r.lookup? d.typeId ≠ none) :
    r.registerAll ds = r := by
  induction ds with
  | nil => rfl
  | cons d ds ih =>
    obtain ⟨hd, hrest⟩ := List.forall_mem_cons.mp h
    obtain ⟨e, he⟩ := Option.ne_none_iff_exists'.mp hd
    rw [registerAll, List.foldl_cons, register_of_lookup? he]
    exact ih hrest

theorem part_register_congr (h : r.part p = r'.part p) (hp : p d.typeId = true) :
    (r.register d).part p = (r'.register d).part p := by
  have hsame : r.lookup? d.typeId = r'.lookup? d.typeId := lookup?_of_part_eq h hp
  cases hd : r.lookup? d.typeId with
  | none =>
    rw [part_register_of_free hp hd, part_register_of_free hp (hsame ▸ hd), h]
  | some e =>
    rw [register_of_lookup? hd, register_of_lookup? (hsame ▸ hd), h]

theorem part_stock_eq_nil (h : ∀ d ∈ Catalogue.all, p d.typeId = false) : stock.part p = [] := by
  rw [part, List.filter_eq_nil_iff, definitions_stock]
  intro d hd
  simp [h d hd]

end Registry

/-! ### The part of the custom blocks -/

namespace CustomBlock

/-- Both callers. -/
def callers (c : CustomBlock) : List Definition :=
  [c.caller c.callType .statement, c.caller c.exprType .expression]

theorem mem_callers {c : CustomBlock} {d : Definition} : d ∈ c.callers ↔
    d = c.caller c.callType .statement ∨ d = c.caller c.exprType .expression := by
  simp [callers]

theorem register_eq (r : Registry) (c : CustomBlock) : c.register r = r.registerAll c.callers := rfl

theorem typeId_caller (c : CustomBlock) (t : String) (shape : Shape) :
    (c.caller t shape).typeId = t := by
  show (c.rule.schema t shape).typeId = t
  rw [CallRule.schema_eq]
  rfl

theorem isCallerType_callType (c : CustomBlock) : isCallerType c.callType = true :=
  startsWith_append_of_startsWith (startsWith_append "myblock_" "call_") c.safeName

theorem isCallerType_exprType (c : CustomBlock) : isCallerType c.exprType = true :=
  startsWith_append_of_startsWith (startsWith_append "myblock_" "expr_") c.safeName

theorem isCallerType_of_mem_callers {c : CustomBlock} {d : Definition} (h : d ∈ c.callers) :
    isCallerType d.typeId = true := by
  rcases mem_callers.mp h with rfl | rfl
  · rw [typeId_caller]
    exact c.isCallerType_callType
  · rw [typeId_caller]
    exact c.isCallerType_exprType

theorem part_register {p : String → Bool} (hp : ∀ t, isCallerType t = true → p t = false)
    (r : Registry) (c : CustomBlock) : (c.register r).part p = r.part p := by
  rw [register_eq]
  exact Registry.part_registerAll_of_not fun d hd => hp _ (isCallerType_of_mem_callers hd)

end CustomBlock

/-! ### The part of the modules -/

/-- Whether a module gets a category. -/
def ModuleDescriptor.isUsable (m : ModuleDescriptor) : Bool := m.available && !m.isEmpty

namespace Text

theorem sanitize_append (s t : String) : sanitize (s ++ t) = sanitize s ++ sanitize t := by
  simp only [sanitize, String.toList_append, List.map_append, String.ofList_append]

end Text

namespace Synthesis

variable {digest : String → String} {limits : SynthesisLimits} {r : Registry} {name : String}
  {m : Member} {p : String → Bool}

theorem isMemberType_sanitize (t : String) : isMemberType (Text.sanitize ("import_" ++ t)) = true := by
  have hlead : Text.sanitize "import_" = "import_" := by decide +kernel
  rw [Text.sanitize_append, hlead]
  exact startsWith_append "import_" _

theorem isMemberType_base {d : ModuleDescriptor} (h : m ∈ members d limits) :
    isMemberType m.base = true := by
  simp only [members, List.mem_append, List.mem_map] at h
  rcases h with ((⟨f, -, rfl⟩ | ⟨f, -, rfl⟩) | ⟨c, -, rfl⟩) | ⟨c, -, rfl⟩
  · simp only [functionType, String.append_assoc]
    exact isMemberType_sanitize _
  · simp only [statementType, String.append_assoc]
    exact isMemberType_sanitize _
  · simp only [functionType, String.append_assoc]
    exact isMemberType_sanitize _
  · simp only [constantType, String.append_assoc]
    exact isMemberType_sanitize _

/-- The type of a member whose own one is taken. -/
def Member.marked (digest : String → String) (m : Member) : String :=
  m.base ++ "_" ++ String.ofList ((digest (m.target ++ ":" ++ m.shape.name)).toList.take 8)

/-- The types that a member can have. -/
def Member.types (digest : String → String) (m : Member) : List String :=
  [m.base, m.marked digest]

theorem Member.mem_types {t : String} : t ∈ m.types digest ↔ t = m.base ∨ t = m.marked digest := by
  simp [types]

theorem claimType_mem_types (digest : String → String) (r : Registry) (m : Member) :
    claimType digest r m.base m.target m.shape ∈ m.types digest := by
  rw [Member.mem_types]
  unfold claimType
  split
  · exact .inl rfl
  · split
    · exact .inl rfl
    · exact .inr rfl

theorem isMemberType_of_mem_types (hm : isMemberType m.base = true) {t : String}
    (ht : t ∈ m.types digest) : isMemberType t = true := by
  rcases Member.mem_types.mp ht with rfl | rfl
  · exact hm
  · rw [Member.marked, String.append_assoc]
    exact startsWith_append_of_startsWith hm _

theorem isMemberType_claimType (hm : isMemberType m.base = true) (r : Registry) :
    isMemberType (claimType digest r m.base m.target m.shape) = true :=
  isMemberType_of_mem_types hm (claimType_mem_types digest r m)

/-- Two registries that agree on a part, with the same besides. -/
def Alike (p : String → Bool) {α : Type} (s s' : Registry × α) : Prop :=
  s.1.part p = s'.1.part p ∧ s.2 = s'.2

theorem Alike.refl {α : Type} (s : Registry × α) : Alike p s s := ⟨rfl, rfl⟩

theorem addMember_alike (hp : ∀ t, isMemberType t = true → p t = true)
    (hm : isMemberType m.base = true) {s s' : Registry × Category} (h : Alike p s s') :
    Alike p (addMember digest name s m) (addMember digest name s' m) := by
  have hclaim : claimType digest s.1 m.base m.target m.shape =
      claimType digest s'.1 m.base m.target m.shape :=
    claimType_of_lookup?_eq (Registry.lookup?_of_part_eq h.1 (hp _ hm)) m.target m.shape
  have htype : isMemberType (claimType digest s'.1 m.base m.target m.shape) = true :=
    isMemberType_claimType hm s'.1
  simp only [Alike, addMember, hclaim, h.2, and_true]
  exact Registry.part_register_congr h.1 (by rw [m.typeId_definition]; exact hp _ htype)

theorem addMembers_alike (hp : ∀ t, isMemberType t = true → p t = true) {members : List Member}
    (hm : ∀ m ∈ members, isMemberType m.base = true) {s s' : Registry × Category}
    (h : Alike p s s') :
    Alike p (members.foldl (addMember digest name) s) (members.foldl (addMember digest name) s') := by
  induction members generalizing s s' with
  | nil => exact h
  | cons m members ih =>
    obtain ⟨hhead, hrest⟩ := List.forall_mem_cons.mp hm
    exact ih hrest (addMember_alike hp hhead h)

theorem addModule_alike (hp : ∀ t, isMemberType t = true → p t = true) {r' : Registry}
    (h : r.part p = r'.part p) (m : ModuleDescriptor) :
    Alike p (addModule digest limits r m) (addModule digest limits r' m) :=
  addMembers_alike hp (fun _ hx => isMemberType_base hx) ⟨h, rfl⟩

theorem addModules_nil (digest : String → String) (limits : SynthesisLimits) (r : Registry) :
    addModules digest limits r [] = (r, []) := rfl

theorem addModules_cons_of_usable {m : ModuleDescriptor} (husable : m.isUsable = true)
    (digest : String → String) (limits : SynthesisLimits) (r : Registry) (ms : List ModuleDescriptor) :
    addModules digest limits r (m :: ms) =
      ((addModules digest limits (addModule digest limits r m).1 ms).1,
        (addModule digest limits r m).2 ::
          (addModules digest limits (addModule digest limits r m).1 ms).2) := by
  rw [addModules]
  exact if_pos husable

theorem addModules_cons_of_not_usable {m : ModuleDescriptor} (husable : ¬m.isUsable = true)
    (digest : String → String) (limits : SynthesisLimits) (r : Registry) (ms : List ModuleDescriptor) :
    addModules digest limits r (m :: ms) = addModules digest limits r ms := by
  rw [addModules]
  exact if_neg husable

theorem addModules_alike (hp : ∀ t, isMemberType t = true → p t = true) {r' : Registry}
    (h : r.part p = r'.part p) (ms : List ModuleDescriptor) :
    Alike p (addModules digest limits r ms) (addModules digest limits r' ms) := by
  induction ms generalizing r r' with
  | nil => exact ⟨h, rfl⟩
  | cons m ms ih =>
    by_cases husable : m.isUsable = true
    · have hmodule : Alike p (addModule digest limits r m) (addModule digest limits r' m) :=
        addModule_alike hp h m
      rw [addModules_cons_of_usable husable, addModules_cons_of_usable husable]
      have hrest := ih hmodule.1
      exact ⟨hrest.1, by rw [hmodule.2, hrest.2]⟩
    · rw [addModules_cons_of_not_usable husable, addModules_cons_of_not_usable husable]
      exact ih h

theorem part_addMembers (hp : ∀ t, isMemberType t = true → p t = false) {members : List Member}
    (hm : ∀ m ∈ members, isMemberType m.base = true) (s : Registry × Category) :
    (members.foldl (addMember digest name) s).1.part p = s.1.part p := by
  induction members generalizing s with
  | nil => rfl
  | cons m members ih =>
    obtain ⟨hhead, hrest⟩ := List.forall_mem_cons.mp hm
    rw [List.foldl_cons, ih hrest]
    refine Registry.part_register_of_not ?_
    rw [m.typeId_definition]
    exact hp _ (isMemberType_claimType hhead s.1)

theorem part_addModules (hp : ∀ t, isMemberType t = true → p t = false) (r : Registry)
    (ms : List ModuleDescriptor) : (addModules digest limits r ms).1.part p = r.part p := by
  induction ms generalizing r with
  | nil => rfl
  | cons m ms ih =>
    by_cases husable : m.isUsable = true
    · rw [addModules_cons_of_usable husable, ih]
      exact part_addMembers hp (fun _ hx => isMemberType_base hx) _
    · rw [addModules_cons_of_not_usable husable, ih]

theorem addModules_append (digest : String → String) (limits : SynthesisLimits) (r : Registry)
    (ms ns : List ModuleDescriptor) :
    addModules digest limits r (ms ++ ns) =
      ((addModules digest limits (addModules digest limits r ms).1 ns).1,
        (addModules digest limits r ms).2 ++
          (addModules digest limits (addModules digest limits r ms).1 ns).2) := by
  induction ms generalizing r with
  | nil => rfl
  | cons m ms ih =>
    by_cases husable : m.isUsable = true
    · rw [List.cons_append, addModules_cons_of_usable husable, addModules_cons_of_usable husable, ih]
      rfl
    · rw [List.cons_append, addModules_cons_of_not_usable husable,
        addModules_cons_of_not_usable husable, ih]

end Synthesis

end Blockwright
