import Blockwright.Catalogue.Library
import Blockwright.CustomBlock
import Blockwright.Module.Synthesis

/-!
# What can be registered

A registry starts with the stock catalogue and grows by custom blocks and imported modules. All its
definitions come from one of the three (`Registry.mem_grown`). They are `Sound`: a rule reads no body
slot as a value, and a block that can stand in a value slot has a value.
-/

namespace Blockwright

/-! ### Sound definitions -/

/-- The slot that a piece reads as a value. -/
def Piece.valueSlot? : Piece → Option String
  | .value slot _ => some slot
  | .clause _ slot => some slot
  | _ => none

/-- The slots that a template reads as values. -/
def Template.valueSlots : Template → List String
  | .statement ps => ps.filterMap Piece.valueSlot?
  | .expression _ ps => ps.filterMap Piece.valueSlot?
  | .number _ => []
  | .binary _ => ["A", "B"]

namespace Rule

/-- The slots that a rule reads as values. -/
def valueSlots : Rule → List String
  | .template t => t.valueSlots
  | .call c => (List.range c.params.length).map socketSlot
  | .method m => m.receiver :: m.args
  | .constant _ => []

/-- Whether a rule writes a statement whatever the shape of its block. -/
def isStatement : Rule → Bool
  | .template (.statement _) => true
  | _ => false

end Rule

/-- A rule that goes with its schema. -/
structure Definition.Sound (d : Definition) : Prop where
  /-- No body slot is read as a value. -/
  values : ∀ slot ∈ d.rule.valueSlots, (d.schema.slot? slot).map Slot.kind ≠ some .body
  /-- A block that can stand in a value slot has a value. -/
  output : d.schema.shape.fitsValue = true → d.rule.isStatement = false

instance (d : Definition) : Decidable d.Sound :=
  decidable_of_iff
    ((∀ slot ∈ d.rule.valueSlots, (d.schema.slot? slot).map Slot.kind ≠ some .body) ∧
      (d.schema.shape.fitsValue = true → d.rule.isStatement = false))
    ⟨fun h => ⟨h.1, h.2⟩, fun h => ⟨h.values, h.output⟩⟩

namespace Schema

/-- No slot takes a chain. -/
def Bodiless (s : Schema) : Prop := ∀ slot ∈ s.slots, slot.kind ≠ .body

variable {s : Schema}

theorem Bodiless.kind_ne (h : s.Bodiless) (name : String) :
    (s.slot? name).map Slot.kind ≠ some .body := by
  intro hk
  obtain ⟨slot, hslot, hkind⟩ := Option.map_eq_some_iff.mp hk
  exact h slot (List.mem_of_find?_eq_some hslot) hkind

theorem bodiless_ofShape (typeId : String) (shape : Shape) : (ofShape typeId shape).Bodiless := by
  intro slot h
  simp [ofShape] at h

end Schema

/-- A call has a text for the arguments, then a socket for each. -/
theorem CallRule.schema_eq (call : CallRule) (typeId : String) (shape : Shape) :
    call.schema typeId shape =
      { Schema.ofShape typeId shape with
        slots :=
          (if call.hasArgField then
            [⟨argsField, .literal .text, some (Text.joinWith ", " call.params)⟩] else []) ++
          (List.range call.params.length).map fun i => ⟨socketSlot i, .value, none⟩ } := by
  have hfold : ∀ (is : List Nat) (s : Schema),
      is.foldl (fun s index => s.optional (socketSlot index)) s =
        { s with slots := s.slots ++ is.map fun i => ⟨socketSlot i, .value, none⟩ } := by
    intro is
    induction is with
    | nil => simp
    | cons i is ih =>
      intro s
      rw [List.foldl_cons, ih, List.map_cons, List.append_cons]
      rfl
  rw [CallRule.schema, hfold]
  split <;> rfl

theorem CallRule.slots_schema (call : CallRule) (typeId : String) (shape : Shape) :
    (call.schema typeId shape).slots =
      (if call.hasArgField then
        [⟨argsField, .literal .text, some (Text.joinWith ", " call.params)⟩] else []) ++
      (List.range call.params.length).map fun i => ⟨socketSlot i, .value, none⟩ := by
  rw [CallRule.schema_eq]

theorem CallRule.bodiless_schema (call : CallRule) (typeId : String) (shape : Shape) :
    (call.schema typeId shape).Bodiless := by
  intro slot hslot
  rw [CallRule.slots_schema] at hslot
  rcases List.mem_append.mp hslot with hslot | hslot
  · split at hslot
    · rw [List.mem_singleton.mp hslot]; simp
    · cases hslot
  · obtain ⟨i, -, rfl⟩ := List.mem_map.mp hslot
    simp

theorem append_toString_injective (lead : String) :
    Function.Injective fun n : Nat => lead ++ toString n := by
  intro i j h
  have hchars : Nat.toDigits 10 i = Nat.toDigits 10 j := by
    simpa [Nat.toString_eq_ofList_toDigits] using congrArg String.toList h
  rw [← Nat.ofDigitChars_ten_toDigits (n := i), hchars, Nat.ofDigitChars_ten_toDigits]

theorem Definition.Sound.of_bodiless {d : Definition} (h : d.schema.Bodiless)
    (hrule : d.rule.isStatement = false) : d.Sound :=
  ⟨fun slot _ => h.kind_ne slot, fun _ => hrule⟩

theorem Catalogue.sound_of_mem_all : ∀ d ∈ Catalogue.all, d.Sound := by decide +kernel

theorem Catalogue.distinct_all : (Catalogue.all.map Definition.typeId).Nodup := by
  -- Texts are compared as numbers: to compare them as they are takes far longer.
  have hcodes : ((Catalogue.all.map Definition.typeId).map fun t =>
      t.toByteArray.data.toList.foldl (fun n byte => 256 * n + byte.toNat) 0).Nodup := by decide +kernel
  exact List.Pairwise.of_map _ (fun a b hne heq => hne (by rw [heq])) hcodes

theorem CustomBlock.sound_caller (c : CustomBlock) (typeId : String) (shape : Shape) :
    (c.caller typeId shape).Sound :=
  .of_bodiless (c.rule.bodiless_schema typeId shape) rfl

namespace Synthesis

/-- The members of a module are called, or stand for themselves. -/
theorem rule_of_mem_members {d : ModuleDescriptor} {limits : SynthesisLimits} {m : Member}
    (h : m ∈ members d limits) : (∃ call, m.rule = .call call) ∨ ∃ text, m.rule = .constant text := by
  simp only [members, List.mem_append, List.mem_map] at h
  rcases h with ((⟨f, -, rfl⟩ | ⟨f, -, rfl⟩) | ⟨c, -, rfl⟩) | ⟨c, -, rfl⟩
  · exact .inl ⟨_, rfl⟩
  · exact .inl ⟨_, rfl⟩
  · exact .inl ⟨_, rfl⟩
  · exact .inr ⟨_, rfl⟩

theorem definition_cases {d : ModuleDescriptor} {limits : SynthesisLimits} {m : Member}
    (h : m ∈ members d limits) (typeId : String) :
    (∃ call, (m.definition typeId d.name).rule = .call call ∧
      (m.definition typeId d.name).schema.slots = (call.schema typeId m.shape).slots) ∨
    ∃ text, (m.definition typeId d.name).rule = .constant text ∧
      (m.definition typeId d.name).schema.slots = [] := by
  rcases rule_of_mem_members h with ⟨call, hrule⟩ | ⟨text, hrule⟩
  · refine .inl ⟨call, hrule, ?_⟩
    show (m.schema typeId).slots = _
    rw [Member.schema, hrule]
  · refine .inr ⟨text, hrule, ?_⟩
    show (m.schema typeId).slots = []
    rw [Member.schema, hrule]
    rfl

theorem sound_definition {d : ModuleDescriptor} {limits : SynthesisLimits} {m : Member}
    (h : m ∈ members d limits) (typeId : String) : (m.definition typeId d.name).Sound := by
  rcases rule_of_mem_members h with ⟨call, hrule⟩ | ⟨text, hrule⟩
  · refine .of_bodiless ?_ (by simp [Member.definition, hrule, Rule.isStatement])
    show (m.schema typeId).Bodiless
    rw [Member.schema, hrule]
    exact call.bodiless_schema typeId m.shape
  · refine .of_bodiless ?_ (by simp [Member.definition, hrule, Rule.isStatement])
    show (m.schema typeId).Bodiless
    rw [Member.schema, hrule]
    exact Schema.bodiless_ofShape typeId m.shape

end Synthesis

/-! ### Growth -/

/-- A way to add types to a registry. -/
inductive Growth
  | customBlock (c : CustomBlock)
  | modules (limits : SynthesisLimits) (ms : List ModuleDescriptor)

namespace Registry

variable {r : Registry} {d : Definition}

/-- Adds types. `digest` tells apart members that have the same type otherwise. -/
def grow (digest : String → String) (r : Registry) : Growth → Registry
  | .customBlock c => c.register r
  | .modules limits ms => (Synthesis.addModules digest limits r ms).1

/-- Adds types time after time. -/
def grown (digest : String → String) (r : Registry) (growth : List Growth) : Registry :=
  growth.foldl (grow digest) r

theorem mem_of_lookup? {t : String} (h : r.lookup? t = some d) : d ∈ r.definitions :=
  List.mem_of_find?_eq_some h

theorem mem_register {e : Definition} (h : d ∈ (r.register e).definitions) :
    d ∈ r.definitions ∨ d = e := by
  unfold register at h
  split at h
  · simpa using h
  · exact .inl h

theorem mem_registerAll {ds : List Definition} (h : d ∈ (r.registerAll ds).definitions) :
    d ∈ r.definitions ∨ d ∈ ds := by
  induction ds generalizing r with
  | nil => exact .inl h
  | cons e ds ih =>
    rcases ih h with h | h
    · rcases mem_register h with h | rfl
      · exact .inl h
      · exact .inr List.mem_cons_self
    · exact .inr (List.mem_cons_of_mem _ h)

/-- Where the definitions of a grown registry come from. -/
inductive Origin : Definition → Prop
  | stock {d : Definition} (h : d ∈ Catalogue.all) : Origin d
  | caller (c : CustomBlock) (typeId : String) (shape : Shape) : Origin (c.caller typeId shape)
  | member {m : ModuleDescriptor} {limits : SynthesisLimits} {member : Synthesis.Member}
    (h : member ∈ Synthesis.members m limits) (typeId : String) :
    Origin (member.definition typeId m.name)

theorem mem_addMembers {digest : String → String} {m : ModuleDescriptor} {limits : SynthesisLimits}
    (members : List Synthesis.Member) (hsub : ∀ x ∈ members, x ∈ Synthesis.members m limits)
    (state : Registry × Category) :
    ∀ d ∈ (members.foldl (Synthesis.addMember digest m.name) state).1.definitions,
      d ∈ state.1.definitions ∨ Origin d := by
  induction members generalizing state with
  | nil => exact fun d h => .inl h
  | cons x members ih =>
    intro d h
    rcases ih (fun y hy => hsub y (List.mem_cons_of_mem _ hy)) _ d h with h | h
    · rcases mem_register h with h | rfl
      · exact .inl h
      · exact .inr (.member (hsub x List.mem_cons_self) _)
    · exact .inr h

theorem mem_addModules {digest : String → String} {limits : SynthesisLimits}
    (ms : List ModuleDescriptor) (r : Registry) :
    ∀ d ∈ (Synthesis.addModules digest limits r ms).1.definitions, d ∈ r.definitions ∨ Origin d := by
  induction ms generalizing r with
  | nil => exact fun d h => .inl h
  | cons m ms ih =>
    intro d h
    rw [Synthesis.addModules] at h
    split at h
    · rcases ih _ d h with h | h
      · exact mem_addMembers _ (fun x hx => hx) _ d h
      · exact .inr h
    · exact ih r d h

theorem mem_grow {digest : String → String} (growth : Growth) :
    ∀ d ∈ (r.grow digest growth).definitions, d ∈ r.definitions ∨ Origin d := by
  intro d h
  cases growth with
  | customBlock c =>
    rcases mem_register h with h | rfl
    · rcases mem_register h with h | rfl
      · exact .inl h
      · exact .inr (.caller ..)
    · exact .inr (.caller ..)
  | modules limits ms => exact mem_addModules ms r d h

/-- All definitions of a registry that has grown from the stock catalogue are of the three kinds. -/
theorem mem_grown (digest : String → String) (growth : List Growth) :
    ∀ d ∈ (stock.grown digest growth).definitions, Origin d := by
  have hgrown : ∀ r : Registry, (∀ d ∈ r.definitions, Origin d) →
      ∀ d ∈ (r.grown digest growth).definitions, Origin d := by
    induction growth with
    | nil => exact fun r h => h
    | cons g growth ih =>
      exact fun r h => ih _ fun d hd => (mem_grow g d hd).elim (h d) id
  refine hgrown stock fun d h => ?_
  rcases mem_registerAll h with h | h
  · simp [empty] at h
  · exact .stock h

theorem Origin.sound (h : Origin d) : d.Sound := by
  cases h with
  | stock h => exact Catalogue.sound_of_mem_all d h
  | caller c typeId shape => exact c.sound_caller typeId shape
  | member h typeId => exact Synthesis.sound_definition h typeId

theorem sound_of_lookup?_grown {digest : String → String} {growth : List Growth} {t : String}
    (h : (stock.grown digest growth).lookup? t = some d) : d.Sound :=
  (mem_grown digest growth d (mem_of_lookup? h)).sound

/-! ### What growth keeps -/

/-- Every type of the first registry has the same definition in the second. -/
def Within (r r' : Registry) : Prop := ∀ t d, r.lookup? t = some d → r'.lookup? t = some d

theorem Within.trans {r' r'' : Registry} (h : r.Within r') (h' : r'.Within r'') : r.Within r'' :=
  fun t d hd => h' t d (h t d hd)

theorem within_register (r : Registry) (d : Definition) : r.Within (r.register d) := by
  intro t e h
  rw [lookup?_register, h]
  rfl

theorem within_addMembers (digest : String → String) (name : String)
    (members : List Synthesis.Member) (state : Registry × Category) :
    state.1.Within (members.foldl (Synthesis.addMember digest name) state).1 := by
  induction members generalizing state with
  | nil => exact fun _ _ h => h
  | cons m members ih =>
    exact Within.trans (within_register _ _) (ih (Synthesis.addMember digest name state m))

theorem within_addModules (digest : String → String) (limits : SynthesisLimits) (r : Registry)
    (ms : List ModuleDescriptor) : r.Within (Synthesis.addModules digest limits r ms).1 := by
  induction ms generalizing r with
  | nil => exact fun _ _ h => h
  | cons m ms ih =>
    rw [Synthesis.addModules]
    split
    · exact Within.trans (within_addMembers digest m.name (Synthesis.members m limits) (r, _)) (ih _)
    · exact ih r

theorem within_grow (digest : String → String) (r : Registry) (growth : Growth) :
    r.Within (r.grow digest growth) := by
  cases growth with
  | customBlock c => exact Within.trans (within_register _ _) (within_register _ _)
  | modules limits ms => exact within_addModules digest limits r ms

/-- Growth keeps the definitions that are there. -/
theorem within_grown (digest : String → String) (r : Registry) (growth : List Growth) :
    r.Within (r.grown digest growth) := by
  induction growth generalizing r with
  | nil => exact fun _ _ h => h
  | cons g growth ih => exact (within_grow digest r g).trans (ih _)

theorem lookup?_registerAll (r : Registry) (ds : List Definition) (t : String) :
    (r.registerAll ds).lookup? t = (r.lookup? t).or (ds.find? fun d => d.typeId = t) := by
  induction ds generalizing r with
  | nil => simp [registerAll]
  | cons d ds ih =>
    rw [registerAll, List.foldl_cons, ← registerAll, ih, lookup?_register]
    by_cases h : d.typeId = t <;> cases r.lookup? t <;> simp [h]

theorem lookup?_stock (t : String) : stock.lookup? t = Catalogue.all.find? fun d => d.typeId = t := by
  rw [stock, lookup?_registerAll]
  rfl

theorem definitions_registerAll {r : Registry} {ds : List Definition}
    (h : ((r.definitions ++ ds).map Definition.typeId).Nodup) :
    (r.registerAll ds).definitions = r.definitions ++ ds := by
  induction ds generalizing r with
  | nil => rw [List.append_nil]; rfl
  | cons d ds ih =>
    have hnew : r.lookup? d.typeId = none := by
      rw [lookup?_eq_none_iff]
      intro hmem
      rw [List.map_append, List.map_cons] at h
      exact (List.nodup_append.mp h).2.2 _ hmem _ (List.mem_cons_self ..) rfl
    have hdefs : (r.register d).definitions = r.definitions ++ [d] := by rw [register, dif_pos hnew]
    rw [List.append_cons] at h ⊢
    rw [registerAll, List.foldl_cons, ← registerAll, ih (by rwa [hdefs]), hdefs]

theorem definitions_stock : stock.definitions = Catalogue.all :=
  definitions_registerAll Catalogue.distinct_all

/-- Without growth a registry is the catalogue as it stands. -/
theorem stock_grown_nil (digest : String → String) :
    stock.grown digest [] = ⟨Catalogue.all, Catalogue.distinct_all⟩ := by
  have hgrown : ∀ r : Registry, r.grown digest [] = r := fun _ => rfl
  have hdefs : stock.definitions = Catalogue.all := definitions_stock
  rw [hgrown]
  cases hs : stock with
  | mk definitions distinct => rw [hs] at hdefs; cases hdefs; rfl

end Registry

end Blockwright
