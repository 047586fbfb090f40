import Blockwright.Digest
import Blockwright.Proofs.Categories
import Mathlib.Data.List.Forall2

/-!
# The blocks of members

Every member of a module has a type in the category of its module, under which a block is registered
(`Synthesis.addModules_claims`). The block need not be the member's own. A member has two types to
choose from, and takes the second, which ends with a digest, if the first is taken by other code; but
then it does not look whether the second one is free. So the block writes the member unless both of
its types are taken by other code (`Synthesis.writtenBy_claim_iff`), and this can happen.

What a block is for can be told from its type and the code that it names, since the types of a
function, of its statement and of a constant differ in length (`Synthesis.sameCode_of_mem_types`).

Main statement: `Synthesis.addModules_lists_members`.
-/

namespace Blockwright

/-! ### Lengths -/

theorem Text.length_sanitize (s : String) : (sanitize s).length = s.length := by
  rw [sanitize, String.length_ofList, List.length_map, String.length_toList]

namespace Digest

theorem length_md5 (text : String) : (md5 text).length = 32 := by
  have hbytes : ∀ message, (bytes message).length = 16 := by
    intro message
    simp [bytes, Bytes.length_littleEndian]
  have hhex : ∀ bs : List UInt8, (bs.flatMap fun b => Text.hexByte b.toNat).length = 2 * bs.length := by
    intro bs
    induction bs with
    | nil => rfl
    | cons b bs ih =>
      rw [List.flatMap_cons, List.length_append, ih, List.length_cons]
      simp only [Text.hexByte, List.length_cons, List.length_nil]
      omega
  rw [md5, String.length_ofList, hhex, hbytes]

end Digest

/-! ### Blocks that write a member -/

/-- The rules call the same function, or stand for the same constant. -/
def Rule.SameCode : Rule → Rule → Prop
  | .call a, .call b => a.callee = b.callee
  | .constant a, .constant b => a = b
  | _, _ => False

instance : DecidableRel Rule.SameCode
  | .call a, .call b => inferInstanceAs (Decidable (a.callee = b.callee))
  | .constant a, .constant b => inferInstanceAs (Decidable (a = b))
  | .call _, .template _ | .call _, .method _ | .call _, .constant _ => .isFalse id
  | .constant _, .template _ | .constant _, .method _ | .constant _, .call _ => .isFalse id
  | .template _, _ | .method _, _ => .isFalse id

namespace Synthesis

variable {digest : String → String} {limits : SynthesisLimits} {r r' : Registry} {name t : String}
  {x y : Member} {m : ModuleDescriptor} {d : Definition}

/-- The block writes the member, in the shape that the member has. -/
def Member.WrittenBy (x : Member) (d : Definition) : Prop :=
  d.schema.shape = x.shape ∧ d.rule.SameCode x.rule

instance (x : Member) (d : Definition) : Decidable (x.WrittenBy d) :=
  inferInstanceAs (Decidable (_ ∧ _))

/-- Both types of a member have blocks for other code. -/
def Crowded (digest : String → String) (r : Registry) (x : Member) : Prop :=
  ∀ t ∈ x.types digest, ∃ d ∈ r.lookup? t, ¬x.WrittenBy d

/-! ### What a type is for -/

theorem length_sanitize_import (moduleName link member : String) :
    (Text.sanitize ("import_" ++ moduleName ++ link ++ member)).length =
      (moduleName ++ "." ++ member).length + link.length + 6 := by
  have hlead : "import_".length = 7 := rfl
  have hdot : ".".length = 1 := rfl
  rw [Text.length_sanitize]
  simp only [String.length_append, hlead, hdot]
  omega

theorem length_functionType (moduleName member : String) :
    (functionType moduleName member).length = (moduleName ++ "." ++ member).length + 7 :=
  length_sanitize_import moduleName "_" member

theorem length_statementType (moduleName member : String) :
    (statementType moduleName member).length = (moduleName ++ "." ++ member).length + 12 := by
  have hend : "_stmt".length = 5 := rfl
  rw [statementType, Text.sanitize_append, String.length_append, ← functionType, length_functionType,
    Text.length_sanitize, hend]

theorem length_constantType (moduleName member : String) :
    (constantType moduleName member).length = (moduleName ++ "." ++ member).length + 13 :=
  length_sanitize_import moduleName "_const_" member

theorem length_base (h : x ∈ members m limits) :
    (∃ call, x.rule = .call call) ∧
      (x.base.length = x.target.length + 7 ∨ x.base.length = x.target.length + 12) ∨
    (∃ text, x.rule = .constant text) ∧ x.base.length = x.target.length + 13 := by
  simp only [members, List.mem_append, List.mem_map] at h
  rcases h with ((⟨f, -, rfl⟩ | ⟨f, -, rfl⟩) | ⟨c, -, rfl⟩) | ⟨c, -, rfl⟩
  · exact .inl ⟨⟨_, rfl⟩, .inl (length_functionType m.name f.name)⟩
  · exact .inl ⟨⟨_, rfl⟩, .inr (length_statementType m.name f.name)⟩
  · exact .inl ⟨⟨_, rfl⟩, .inl (length_functionType m.name c.name)⟩
  · exact .inr ⟨⟨_, rfl⟩, length_constantType m.name c.name⟩

theorem length_marked (hdigest : ∀ s, 8 ≤ (digest s).length) (x : Member) :
    (x.marked digest).length = x.base.length + 9 := by
  have hmark := hdigest (x.target ++ ":" ++ x.shape.name)
  have hlink : "_".length = 1 := rfl
  rw [← String.length_toList] at hmark
  rw [Member.marked, String.length_append, String.length_append, hlink, String.length_ofList,
    List.length_take_of_le hmark]

theorem length_of_mem_types (hdigest : ∀ s, 8 ≤ (digest s).length) (h : t ∈ x.types digest) :
    t.length = x.base.length ∨ t.length = x.base.length + 9 := by
  rcases Member.mem_types.mp h with rfl | rfl
  · exact .inl rfl
  · exact .inr (length_marked hdigest x)

/-- Members that can have one type, and that name the same code, are of one kind. -/
theorem sameCode_of_mem_types (hdigest : ∀ s, 8 ≤ (digest s).length) {n : ModuleDescriptor}
    {limits' : SynthesisLimits} (hx : x ∈ members m limits) (hy : y ∈ members n limits')
    (htx : t ∈ x.types digest) (hty : t ∈ y.types digest) (htarget : y.target = x.target) :
    y.rule.SameCode x.rule := by
  have hlx := length_of_mem_types hdigest htx
  have hly := length_of_mem_types hdigest hty
  have hsame : y.target.length = x.target.length := congrArg String.length htarget
  rcases length_base hx with ⟨⟨a, hax⟩, hbx⟩ | ⟨⟨a, hax⟩, hbx⟩
  · rcases length_base hy with ⟨⟨b, hby⟩, -⟩ | ⟨-, hby⟩
    · simp only [Member.target, hax, hby] at htarget
      rw [hax, hby]
      exact htarget
    · omega
  · rcases length_base hy with ⟨-, hby⟩ | ⟨⟨b, hby⟩, -⟩
    · omega
    · simp only [Member.target, hax, hby] at htarget
      rw [hax, hby]
      exact htarget

end Synthesis

/-! ### Who has the types of members -/

namespace Registry

open Synthesis

variable {digest : String → String} {r : Registry} {d : Definition}

/-- The block is that of a member that can have its type. -/
def Claim (digest : String → String) (d : Definition) : Prop :=
  ∃ m limits, ∃ x ∈ members m limits,
    d.typeId ∈ x.types digest ∧ d.rule = x.rule ∧ d.schema.shape = x.shape

/-- All types of members have been claimed by members. -/
def Claimed (digest : String → String) (r : Registry) : Prop :=
  ∀ d ∈ r.part isMemberType, Claim digest d

theorem Claimed.register (h : r.Claimed digest)
    (hd : isMemberType d.typeId = true → Claim digest d) : (r.register d).Claimed digest := by
  intro e he
  obtain ⟨hmem, htype⟩ := mem_part.mp he
  rcases mem_register hmem with hmem | rfl
  · exact h e (mem_part.mpr ⟨hmem, htype⟩)
  · exact hd htype

theorem claim_definition {m : ModuleDescriptor} {limits : SynthesisLimits} {x : Member}
    (hx : x ∈ members m limits) (r : Registry) (name : String) :
    Claim digest (x.definition (claimType digest r x.base x.target x.shape) name) := by
  refine ⟨m, limits, x, hx, ?_, rfl, x.shape_definition _ name⟩
  rw [x.typeId_definition]
  exact claimType_mem_types digest r x

theorem Claimed.addMembers {m : ModuleDescriptor} {limits : SynthesisLimits} {xs : List Member}
    (hsub : ∀ x ∈ xs, x ∈ members m limits) {s : Registry × Category} (h : s.1.Claimed digest) :
    (xs.foldl (addMember digest m.name) s).1.Claimed digest := by
  induction xs generalizing s with
  | nil => exact h
  | cons x xs ih =>
    obtain ⟨hx, hrest⟩ := List.forall_mem_cons.mp hsub
    exact ih hrest (h.register fun _ => claim_definition hx s.1 m.name)

theorem Claimed.addModules {limits : SynthesisLimits} (ms : List ModuleDescriptor)
    (h : r.Claimed digest) : (Synthesis.addModules digest limits r ms).1.Claimed digest := by
  induction ms generalizing r with
  | nil => exact h
  | cons m ms ih =>
    by_cases husable : m.isUsable = true
    · rw [addModules_cons_of_usable husable]
      exact ih (h.addMembers fun x hx => hx)
    · rw [addModules_cons_of_not_usable husable]
      exact ih h

theorem Claimed.customBlock (c : CustomBlock) (h : r.Claimed digest) :
    (c.register r).Claimed digest := by
  rw [Claimed, CustomBlock.part_register fun _ => isMemberType_of_isCallerType]
  exact h

theorem Claimed.grown (growth : List Growth) (h : r.Claimed digest) :
    (r.grown digest growth).Claimed digest := by
  induction growth generalizing r with
  | nil => exact h
  | cons g growth ih =>
    refine ih ?_
    cases g with
    | customBlock c => exact h.customBlock c
    | modules limits ms => exact h.addModules ms

theorem claimed_stock (digest : String → String) : stock.Claimed digest := by
  intro d hd
  rw [part_stock_eq_nil fun d hd => Catalogue.isMemberType_typeId hd] at hd
  cases hd

end Registry

namespace Synthesis

variable {digest : String → String} {limits : SynthesisLimits} {r r' : Registry} {name t : String}
  {x y : Member} {m : ModuleDescriptor} {d : Definition}

theorem isRuleFor_of_sameCode {rule : Rule} (h : rule.SameCode x.rule) :
    isRuleFor x.target rule = true := by
  rw [Member.target]
  cases hx : x.rule with
  | call own =>
    rw [hx] at h
    cases rule with
    | call call => exact beq_iff_eq.mpr h
    | template _ => exact h.elim
    | method _ => exact h.elim
    | constant _ => exact h.elim
  | constant own =>
    rw [hx] at h
    cases rule with
    | constant text => exact beq_iff_eq.mpr h
    | template _ => exact h.elim
    | method _ => exact h.elim
    | call _ => exact h.elim
  | template _ => rw [hx] at h; cases rule <;> exact h.elim
  | method _ => rw [hx] at h; cases rule <;> exact h.elim

theorem target_of_isRuleFor (hy : y ∈ members m limits) (h : isRuleFor x.target y.rule = true) :
    y.target = x.target := by
  rcases rule_of_mem_members hy with ⟨call, hrule⟩ | ⟨text, hrule⟩
  · rw [hrule] at h
    rw [Member.target, hrule]
    exact beq_iff_eq.mp h
  · rw [hrule] at h
    rw [Member.target, hrule]
    exact beq_iff_eq.mp h

theorem claimType_of_taken {base target : String} {shape : Shape} (h : r.lookup? base = some d)
    (hother : ¬(isRuleFor target d.rule = true ∧ d.schema.shape = shape)) :
    claimType digest r base target shape =
      base ++ "_" ++ String.ofList ((digest (target ++ ":" ++ shape.name)).toList.take 8) := by
  rw [claimType, h]
  exact if_neg hother

/-- A block that a member takes for its own is one. -/
theorem writtenBy_of_isRuleFor (hr : r.Claimed digest) (hdigest : ∀ s, 8 ≤ (digest s).length)
    (hx : x ∈ members m limits) (hd : r.lookup? x.base = some d)
    (hrule : isRuleFor x.target d.rule = true) (hshape : d.schema.shape = x.shape) :
    x.WrittenBy d := by
  have htype : d.typeId = x.base := Registry.typeId_of_lookup? hd
  have hmember : isMemberType d.typeId = true := by rw [htype]; exact isMemberType_base hx
  obtain ⟨n, limits', y, hy, hmem, hyrule, -⟩ :=
    hr d (Registry.mem_part.mpr ⟨Registry.mem_of_lookup? hd, hmember⟩)
  rw [hyrule] at hrule
  refine ⟨hshape, ?_⟩
  rw [hyrule]
  exact sameCode_of_mem_types hdigest hx hy (Member.mem_types.mpr (.inl rfl)) (htype ▸ hmem)
    (target_of_isRuleFor hy hrule)

/-- The block of a member's type writes the member, unless both types are taken. -/
theorem writtenBy_claim_iff (hr : r.Claimed digest) (hdigest : ∀ s, 8 ≤ (digest s).length)
    (hx : x ∈ members m limits)
    (hd : r.lookup? (claimType digest r x.base x.target x.shape) = some d) :
    x.WrittenBy d ↔ ¬Crowded digest r x := by
  cases hbase : r.lookup? x.base with
  | none =>
    rw [claimType_of_free hbase, hbase] at hd
    cases hd
  | some e =>
    by_cases hown : isRuleFor x.target e.rule = true ∧ e.schema.shape = x.shape
    · rw [claimType_of_own hbase hown.1 hown.2, hbase] at hd
      cases hd
      have hwrites : x.WrittenBy d := writtenBy_of_isRuleFor hr hdigest hx hbase hown.1 hown.2
      refine ⟨fun _ hcrowded => ?_, fun _ => hwrites⟩
      obtain ⟨f, hf, hnot⟩ := hcrowded x.base (Member.mem_types.mpr (.inl rfl))
      cases hbase.symm.trans hf
      exact hnot hwrites
    · -- The second type is taken without a look at its block, which may be anyone's.
      rw [claimType_of_taken hbase hown] at hd
      have hother : ¬x.WrittenBy e := fun h => hown ⟨isRuleFor_of_sameCode h.2, h.1⟩
      constructor
      · intro hwrites hcrowded
        obtain ⟨f, hf, hnot⟩ := hcrowded (x.marked digest) (Member.mem_types.mpr (.inr rfl))
        cases hd.symm.trans hf
        exact hnot hwrites
      · intro hfree
        by_contra hnot
        refine hfree fun t ht => ?_
        rcases Member.mem_types.mp ht with rfl | rfl
        · exact ⟨e, hbase, hother⟩
        · exact ⟨d, hd, hnot⟩

/-! ### What categories list -/

/-- The type that a member claims is listed, and it is registered from then on. -/
theorem addMembers_claims {members : List Member} (hnamed : ∀ x ∈ members, x.Named)
    {s : Registry × Category} (h : (members.foldl (addMember digest name) s).1.Within r')
    (hx : x ∈ members) :
    claimType digest r' x.base x.target x.shape ∈ (members.foldl (addMember digest name) s).2.types ∧
      ∃ d, r'.lookup? (claimType digest r' x.base x.target x.shape) = some d := by
  induction members generalizing s with
  | nil => cases hx
  | cons y members ih =>
    obtain ⟨hy, hrest⟩ := List.forall_mem_cons.mp hnamed
    rcases List.mem_cons.mp hx with rfl | hx
    · -- In any later registry the member would claim the type that it has claimed here.
      have hlater : (addMember digest name s x).1.Within r' :=
        (Registry.within_addMembers digest name members _).trans h
      rw [claimType_again hy hlater]
      refine ⟨types_addMembers members _ _ (Category.mem_push.mpr (.inr rfl)), ?_⟩
      have hheld := hlater _ _ (Registry.lookup?_register_self s.1 _)
      rw [x.typeId_definition] at hheld
      exact ⟨_, hheld⟩
    · exact ih hrest h hx

theorem addModules_claims {ms : List ModuleDescriptor}
    (h : (addModules digest limits r ms).1.Within r') :
    List.Forall₂ (fun m category => category.name = m.name ∧ ∀ x ∈ members m limits,
        claimType digest r' x.base x.target x.shape ∈ category.types ∧
          ∃ d, r'.lookup? (claimType digest r' x.base x.target x.shape) = some d)
      (ms.filter ModuleDescriptor.isUsable) (addModules digest limits r ms).2 := by
  induction ms generalizing r with
  | nil => exact .nil
  | cons m ms ih =>
    by_cases husable : m.isUsable = true
    · rw [addModules_cons_of_usable husable] at h ⊢
      rw [List.filter_cons_of_pos husable]
      refine .cons ⟨name_addMembers _ _, fun x hx => ?_⟩ (ih h)
      exact addMembers_claims (fun x hx => named_of_mem_members hx)
        ((Registry.within_addModules digest limits _ ms).trans h) hx
    · rw [addModules_cons_of_not_usable husable] at h ⊢
      rw [List.filter_cons_of_neg husable]
      exact ih h

end Synthesis

/-! ### The palette of a module -/

namespace Registry

/-- The type is registered, and its block calls that function and has that shape. -/
def Calls (r : Registry) (typeId callee : String) (shape : Shape) : Prop :=
  ∃ d call, r.lookup? typeId = some d ∧ d.rule = .call call ∧ call.callee = callee ∧
    d.schema.shape = shape

/-- The type is registered, and its block is an expression that stands for that constant. -/
def StandsFor (r : Registry) (typeId text : String) : Prop :=
  ∃ d, r.lookup? typeId = some d ∧ d.rule = .constant text ∧ d.schema.shape = .expression

end Registry

namespace Synthesis

variable {limits : SynthesisLimits} {r : Registry} {m : ModuleDescriptor} {category : Category}

/-- The category has a block for every function and class, for the first functions as statements,
and for the first constants. -/
structure Lists (r : Registry) (limits : SynthesisLimits) (m : ModuleDescriptor)
    (category : Category) : Prop where
  functions : ∀ f ∈ m.functions, ∃ t ∈ category.types,
    r.Calls t (m.name ++ "." ++ f.name) .expression
  statements : ∀ f ∈ m.functions.take limits.statementCalls, ∃ t ∈ category.types,
    r.Calls t (m.name ++ "." ++ f.name) .statement
  classes : ∀ c ∈ m.classes, ∃ t ∈ category.types, r.Calls t (m.name ++ "." ++ c.name) .expression
  constants : ∀ c ∈ m.constants.take limits.constants, ∃ t ∈ category.types,
    r.StandsFor t (m.name ++ "." ++ c.name)

theorem Member.WrittenBy.calls {x : Member} {d : Definition} {t : String} {call : CallRule}
    (h : x.WrittenBy d) (hd : r.lookup? t = some d) (hrule : x.rule = .call call) :
    r.Calls t call.callee x.shape := by
  obtain ⟨hshape, hcode⟩ := h
  rw [hrule] at hcode
  cases hdrule : d.rule with
  | call own => rw [hdrule] at hcode; exact ⟨d, own, hd, hdrule, hcode, hshape⟩
  | template _ => rw [hdrule] at hcode; exact hcode.elim
  | method _ => rw [hdrule] at hcode; exact hcode.elim
  | constant _ => rw [hdrule] at hcode; exact hcode.elim

theorem Member.WrittenBy.standsFor {x : Member} {d : Definition} {t text : String}
    (h : x.WrittenBy d) (hd : r.lookup? t = some d) (hrule : x.rule = .constant text)
    (hx : x.shape = .expression) : r.StandsFor t text := by
  obtain ⟨hshape, hcode⟩ := h
  rw [hrule] at hcode
  cases hdrule : d.rule with
  | constant own =>
    rw [hdrule] at hcode
    cases hcode
    exact ⟨d, hd, hdrule, hshape.trans hx⟩
  | template _ => rw [hdrule] at hcode; exact hcode.elim
  | method _ => rw [hdrule] at hcode; exact hcode.elim
  | call _ => rw [hdrule] at hcode; exact hcode.elim

theorem lists_of_writtenBy (h : ∀ x ∈ members m limits, ∃ t ∈ category.types, ∃ d,
    r.lookup? t = some d ∧ x.WrittenBy d) : Lists r limits m category := by
  simp only [members, List.mem_append, List.mem_map] at h
  constructor
  · intro f hf
    obtain ⟨t, ht, d, hd, hwrites⟩ := h _ (.inl (.inl (.inl ⟨f, hf, rfl⟩)))
    exact ⟨t, ht, hwrites.calls hd rfl⟩
  · intro f hf
    obtain ⟨t, ht, d, hd, hwrites⟩ := h _ (.inl (.inl (.inr ⟨f, hf, rfl⟩)))
    exact ⟨t, ht, hwrites.calls hd rfl⟩
  · intro c hc
    obtain ⟨t, ht, d, hd, hwrites⟩ := h _ (.inl (.inr ⟨c, hc, rfl⟩))
    exact ⟨t, ht, hwrites.calls hd rfl⟩
  · intro c hc
    obtain ⟨t, ht, d, hd, hwrites⟩ := h _ (.inr ⟨c, hc, rfl⟩)
    exact ⟨t, ht, hwrites.standsFor hd rfl rfl⟩

/-- Every member of a module has a type in the category of the module, and its block writes the member
unless both types that it can have are taken by other code. -/
theorem addModules_lists_members (growth : List Growth) (limits : SynthesisLimits)
    (ms : List ModuleDescriptor) :
    let result := addModules Digest.md5 limits (Registry.stock.grown Digest.md5 growth) ms
    List.Forall₂
      (fun m category =>
        category.name = m.name ∧
        (∀ x ∈ members m limits, ∃ t ∈ category.types, ∃ d, result.1.lookup? t = some d ∧
          (x.WrittenBy d ↔ ¬Crowded Digest.md5 result.1 x)) ∧
        ((∀ x ∈ members m limits, ¬Crowded Digest.md5 result.1 x) →
          Lists result.1 limits m category))
      (ms.filter ModuleDescriptor.isUsable) result.2 := by
  intro result
  have hdigest : ∀ s, 8 ≤ (Digest.md5 s).length := fun s => by rw [Digest.length_md5]; decide
  have hclaimed : result.1.Claimed Digest.md5 :=
    ((Registry.claimed_stock Digest.md5).grown growth).addModules ms
  refine (addModules_claims fun _ _ h => h).imp ?_
  rintro m category ⟨hname, hclaims⟩
  have hwritten : ∀ x ∈ members m limits, ∃ t ∈ category.types, ∃ d, result.1.lookup? t = some d ∧
      (x.WrittenBy d ↔ ¬Crowded Digest.md5 result.1 x) := by
    intro x hx
    obtain ⟨hlisted, d, hd⟩ := hclaims x hx
    exact ⟨_, hlisted, d, hd, writtenBy_claim_iff hclaimed hdigest hx hd⟩
  refine ⟨hname, hwritten, fun hfree => lists_of_writtenBy fun x hx => ?_⟩
  obtain ⟨t, ht, d, hd, hiff⟩ := hwritten x hx
  exact ⟨t, ht, d, hd, hiff.mpr (hfree x hx)⟩

/-- Modules find in the stock catalogue what they find in the registry without types. -/
theorem addModules_stock_alike (digest : String → String) (limits : SynthesisLimits)
    (ms : List ModuleDescriptor) :
    Alike isMemberType (addModules digest limits Registry.stock ms)
      (addModules digest limits Registry.empty ms) :=
  addModules_alike (fun _ h => h)
    (Registry.part_stock_eq_nil fun _ hd => Catalogue.isMemberType_typeId hd) ms

/-- Modules with members that have the same types after sanitizing. -/
def collidingModules : List ModuleDescriptor :=
  [{ name := "a_b", functions := [{ name := "c" }] },
    { name := "a", functions := [{ name := "b_c" }] }]

theorem addModules_lists_members_colliding :
    let result := addModules Digest.md5 {} (Registry.stock.grown Digest.md5 []) collidingModules
    List.Forall₂ (Lists result.1 {}) collidingModules result.2 := by
  intro result
  have hgrown : ∀ r : Registry, r.grown Digest.md5 [] = r := fun _ => rfl
  have halike : Alike isMemberType result
      (addModules Digest.md5 {} Registry.empty collidingModules) := by
    rw [show result = addModules Digest.md5 {} Registry.stock collidingModules from
      congrArg (addModules Digest.md5 {} · collidingModules) (hgrown Registry.stock)]
    exact addModules_stock_alike Digest.md5 {} collidingModules
  have hown : ∀ m ∈ collidingModules, ∀ x ∈ members m {}, ∃ t ∈ x.types Digest.md5,
      isMemberType t = true ∧
      ∀ d ∈ (addModules Digest.md5 {} Registry.empty collidingModules).1.lookup? t,
        x.WrittenBy d := by
    decide +kernel
  have hfree : ∀ m ∈ collidingModules, ∀ x ∈ members m {}, ¬Crowded Digest.md5 result.1 x := by
    intro m hm x hx hcrowded
    obtain ⟨t, ht, htype, hwrites⟩ := hown m hm x hx
    obtain ⟨d, hd, hnot⟩ := hcrowded t ht
    rw [Registry.lookup?_of_part_eq halike.1 htype] at hd
    exact hnot (hwrites d hd)
  have hlists := addModules_lists_members [] {} collidingModules
  exact ((List.forall₂_and_left _ _).mpr ⟨hfree, hlists⟩).imp fun m category h => h.2.2.2 h.1

/-- A module in which the name of the third function ends like a digest of the first one. -/
def crowdedModule : ModuleDescriptor :=
  { name := "m", functions := [{ name := "f" }, { name := "f_stmt" }, { name := "f_stmt_f087aa88" }] }

/-- The first function has no statement block, since both types that it can have are taken by the
other two. -/
theorem addModules_loses_statement :
    let result := addModules Digest.md5 {} Registry.stock [crowdedModule]
    ¬List.Forall₂ (Lists result.1 {}) [crowdedModule] result.2 := by
  intro result h
  have halike : Alike isMemberType result (addModules Digest.md5 {} Registry.empty [crowdedModule]) :=
    addModules_stock_alike Digest.md5 {} [crowdedModule]
  have hnone : ∀ c ∈ (addModules Digest.md5 {} Registry.empty [crowdedModule]).2, ∀ t ∈ c.types,
      isMemberType t = true ∧
      ∀ d ∈ (addModules Digest.md5 {} Registry.empty [crowdedModule]).1.lookup? t,
        d.schema.shape = .statement → d.callRule?.map CallRule.callee ≠ some "m.f" := by
    decide +kernel
  obtain ⟨category, rest, hlists, -, heq⟩ := List.forall₂_cons_left_iff.mp h
  have hcategory : category ∈ (addModules Digest.md5 {} Registry.empty [crowdedModule]).2 := by
    rw [← halike.2, heq]
    exact List.mem_cons_self
  obtain ⟨t, ht, d, call, hd, hrule, hcallee, hshape⟩ :=
    hlists.statements { name := "f" } List.mem_cons_self
  obtain ⟨htype, hother⟩ := hnone category hcategory t ht
  rw [Registry.lookup?_of_part_eq halike.1 htype] at hd
  refine hother d hd hshape ?_
  rw [Definition.callRule?, hrule]
  exact congrArg some hcallee

end Synthesis

end Blockwright
