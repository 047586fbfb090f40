import Blockwright.Proofs.Categories
import Blockwright.Proofs.Prologues
import Blockwright.Toolbox
import Mathlib.Data.List.Nodup

/-!
# Toolboxes

Custom blocks and modules come into a toolbox in any order, some of them more than once. What the
toolbox is in the end depends on the custom blocks and the modules that it keeps, and on nothing else:
its registry is the callers of the custom blocks beside what the modules, added to the stock
catalogue in one go, make of it (`Toolbox.Composed`). This holds of the toolbox that a session starts
with and is kept by everything that is added (`Toolbox.after_composed`).

Main statements: `Toolbox.callers_agree_with_prologue`, by which every function that a custom block
calls is defined once; `Toolbox.after_rebuilt`, by which a toolbox can be had again from the custom
blocks and the modules that it keeps; and `Toolbox.categories_list_registered`, by which the palette
lists what is registered.
-/

namespace Blockwright

namespace CustomBlock

variable {c e : CustomBlock} {d d' : Definition}

theorem callType_ne_exprType (c e : CustomBlock) : c.callType ≠ e.exprType := by
  intro h
  have hcall : c.callType.startsWith "myblock_call_" = true := startsWith_append _ c.safeName
  have hexpr : e.exprType.startsWith "myblock_expr_" = true := startsWith_append _ e.safeName
  rcases prefix_or_prefix_of_startsWith hcall (h ▸ hexpr) with h | h
  · exact absurd h (by decide)
  · exact absurd h (by decide)

theorem typeId_of_mem_callers (h : d ∈ c.callers) : d.typeId = c.callType ∨ d.typeId = c.exprType := by
  rcases mem_callers.mp h with rfl | rfl
  · exact .inl (c.typeId_caller _ _)
  · exact .inr (c.typeId_caller _ _)

theorem rule_of_mem_callers (h : d ∈ c.callers) : d.rule = .call c.rule := by
  rcases mem_callers.mp h with rfl | rfl
  · rfl
  · rfl

theorem category_of_mem_callers (h : d ∈ c.callers) : d.schema.category = categoryName := by
  rcases mem_callers.mp h with rfl | rfl
  · rfl
  · rfl

/-- Callers that have a type in common call the same function. -/
theorem safeName_of_mem_callers (h : d ∈ c.callers) (h' : d' ∈ e.callers)
    (htype : d.typeId = d'.typeId) : c.safeName = e.safeName := by
  rcases typeId_of_mem_callers h with hd | hd <;> rcases typeId_of_mem_callers h' with hd' | hd' <;>
    rw [hd, hd'] at htype
  · exact String.append_right_inj _ |>.mp htype
  · exact absurd htype (callType_ne_exprType c e)
  · exact absurd htype.symm (callType_ne_exprType e c)
  · exact String.append_right_inj _ |>.mp htype

theorem typeIds_callers (c : CustomBlock) : c.callers.map Definition.typeId = [c.callType, c.exprType] := by
  rw [callers, List.map_cons, List.map_cons, typeId_caller, typeId_caller]
  rfl

theorem nodup_callers (c : CustomBlock) : (c.callers.map Definition.typeId).Nodup := by
  rw [typeIds_callers, List.nodup_cons, List.mem_singleton]
  exact ⟨callType_ne_exprType c c, List.nodup_singleton _⟩

end CustomBlock

theorem Registry.lookup?_of_mem {r : Registry} {d : Definition} (h : d ∈ r.definitions) :
    r.lookup? d.typeId = some d := by
  cases hd : r.lookup? d.typeId with
  | none => exact absurd (List.mem_map_of_mem h) ((r.lookup?_eq_none_iff d.typeId).mp hd)
  | some e =>
    have he := List.inj_on_of_nodup_map r.distinct (mem_of_lookup? hd) h (typeId_of_lookup? hd)
    rw [he]

namespace Toolbox

variable {t u : Toolbox} {c : CustomBlock}

/-! ### Histories -/

/-- A way to add to a toolbox. -/
inductive Step
  | customBlocks (cs : List CustomBlock)
  | modules (ms : List ModuleDescriptor)

/-- Adds to a toolbox. -/
def perform (t : Toolbox) : Step → Toolbox
  | .customBlocks cs => t.addCustomBlocks cs
  | .modules ms => t.addModules ms

/-- The toolbox after steps that started with the stock catalogue. -/
def after (limits : SynthesisLimits) (steps : List Step) : Toolbox := steps.foldl perform { limits }

/-! ### What toolboxes are made of -/

/-- The registry holds the callers of the custom blocks and, apart from them, what the modules add to
the stock catalogue. -/
structure Composed (t : Toolbox) : Prop where
  names : (t.customBlocks.map CustomBlock.safeName).Nodup
  callers : t.registry.part isCallerType = t.customBlocks.flatMap CustomBlock.callers
  others : Synthesis.Alike (fun x => !isCallerType x) (t.registry, t.moduleCategories)
    (Synthesis.addModules Digest.md5 t.limits Registry.stock t.modules)

theorem composed_new (limits : SynthesisLimits) : Composed { limits } := by
  -- Nothing here may unfold the stock catalogue.
  have hnew : ∀ r, r = Registry.stock → Composed { registry := r, limits } := by
    intro r hr
    refine ⟨List.nodup_nil, ?_, ?_⟩
    · show r.part isCallerType = []
      rw [hr]
      exact Registry.part_stock_eq_nil fun _ hd => Catalogue.isCallerType_typeId hd
    · show Synthesis.Alike _ (r, []) (Synthesis.addModules Digest.md5 limits Registry.stock [])
      rw [← hr, Synthesis.addModules_nil]
      exact .refl _
  exact hnew _ rfl

theorem Composed.mem_callers_iff (h : t.Composed) {d : Definition} :
    d ∈ t.registry.definitions ∧ isCallerType d.typeId = true ↔
      ∃ c ∈ t.customBlocks, d ∈ c.callers := by
  rw [← Registry.mem_part, h.callers, List.mem_flatMap]

theorem Composed.lookup?_caller (h : t.Composed) (hc : c ∈ t.customBlocks) {d : Definition}
    (hd : d ∈ c.callers) : t.registry.lookup? d.typeId = some d :=
  Registry.lookup?_of_mem (h.mem_callers_iff.mpr ⟨c, hc, hd⟩).1

theorem Composed.addCustomBlock_of_known (h : t.Composed) {e : CustomBlock} (he : e ∈ t.customBlocks)
    (hname : e.safeName = c.safeName) : t.addCustomBlock c = t := by
  -- The types of both callers depend on the name alone, so the registry has them already.
  have htypes : c.callers.map Definition.typeId = e.callers.map Definition.typeId := by
    have hcall : c.callType = e.callType := congrArg ("myblock_call_" ++ ·) hname.symm
    have hexpr : c.exprType = e.exprType := congrArg ("myblock_expr_" ++ ·) hname.symm
    rw [CustomBlock.typeIds_callers, CustomBlock.typeIds_callers, hcall, hexpr]
  have hregistry : c.register t.registry = t.registry := by
    rw [CustomBlock.register_eq]
    refine Registry.registerAll_of_known fun d hd => ?_
    have hmem := List.mem_map_of_mem (f := Definition.typeId) hd
    rw [htypes] at hmem
    obtain ⟨d', hd', heq⟩ := List.mem_map.mp hmem
    rw [← heq, h.lookup?_caller he hd']
    exact Option.some_ne_none d'
  have hknown : (t.customBlocks.any fun known => known.safeName = c.safeName) = true :=
    List.any_eq_true.mpr ⟨e, he, decide_eq_true hname⟩
  rw [addCustomBlock, hregistry, if_pos hknown]

theorem customBlocks_addCustomBlock_of_new (hnew : ∀ e ∈ t.customBlocks, e.safeName ≠ c.safeName) :
    (t.addCustomBlock c).customBlocks = t.customBlocks ++ [c] := by
  have hnot : ¬(t.customBlocks.any fun known => known.safeName = c.safeName) = true := by
    simpa using hnew
  exact if_neg hnot

theorem Composed.addCustomBlock_of_new (h : t.Composed)
    (hnew : ∀ e ∈ t.customBlocks, e.safeName ≠ c.safeName) : (t.addCustomBlock c).Composed := by
  have hblocks := customBlocks_addCustomBlock_of_new hnew
  have hdistinct : ((t.registry.definitions ++ c.callers).map Definition.typeId).Nodup := by
    rw [List.map_append, List.nodup_append]
    refine ⟨t.registry.distinct, c.nodup_callers, fun x hx y hy hxy => ?_⟩
    obtain ⟨d, hd, rfl⟩ := List.mem_map.mp hx
    obtain ⟨d', hd', rfl⟩ := List.mem_map.mp hy
    have hcaller := CustomBlock.isCallerType_of_mem_callers hd'
    obtain ⟨e, he, hde⟩ := h.mem_callers_iff.mp ⟨hd, hxy ▸ hcaller⟩
    exact hnew e he (CustomBlock.safeName_of_mem_callers hde hd' hxy)
  refine ⟨?_, ?_, ?_⟩
  · rw [hblocks, List.map_append, List.nodup_append]
    refine ⟨h.names, List.nodup_singleton _, fun x hx y hy hxy => ?_⟩
    obtain ⟨e, he, rfl⟩ := List.mem_map.mp hx
    exact hnew e he (hxy.trans (List.mem_singleton.mp hy))
  · rw [hblocks, List.flatMap_append, ← h.callers]
    show (c.register t.registry).part isCallerType = _
    rw [CustomBlock.register_eq, Registry.part, Registry.definitions_registerAll hdistinct,
      List.filter_append]
    congr 1
    simpa using fun d hd => CustomBlock.isCallerType_of_mem_callers hd
  · refine ⟨?_, h.others.2⟩
    exact (CustomBlock.part_register (fun x hx => by simp [hx]) t.registry c).trans h.others.1

theorem Composed.addCustomBlock (h : t.Composed) (c : CustomBlock) : (t.addCustomBlock c).Composed := by
  by_cases hknown : ∃ e ∈ t.customBlocks, e.safeName = c.safeName
  · obtain ⟨e, he, hname⟩ := hknown
    rwa [h.addCustomBlock_of_known he hname]
  · exact h.addCustomBlock_of_new fun e he hname => hknown ⟨e, he, hname⟩

theorem Composed.addCustomBlocks (h : t.Composed) (cs : List CustomBlock) :
    (t.addCustomBlocks cs).Composed := by
  induction cs generalizing t with
  | nil => exact h
  | cons c cs ih => exact ih (h.addCustomBlock c)

theorem Composed.addModules (h : t.Composed) (ms : List ModuleDescriptor) :
    (t.addModules ms).Composed := by
  refine ⟨h.names, ?_, ?_⟩
  · exact (Synthesis.part_addModules (fun _ => isCallerType_of_isMemberType) t.registry _).trans
      h.callers
  · -- The callers in the registry make no difference to the modules that are added.
    have hfresh : ∀ fresh, Synthesis.Alike (fun x => !isCallerType x)
        (Synthesis.addModules Digest.md5 t.limits t.registry fresh)
        (Synthesis.addModules Digest.md5 t.limits
          (Synthesis.addModules Digest.md5 t.limits Registry.stock t.modules).1 fresh) :=
      Synthesis.addModules_alike (fun x hx => by simp [isCallerType_of_isMemberType hx]) h.others.1
    show Synthesis.Alike _ (_, t.moduleCategories ++ _)
      (Synthesis.addModules Digest.md5 t.limits Registry.stock (t.modules ++ _))
    rw [Synthesis.addModules_append]
    refine ⟨(hfresh _).1, ?_⟩
    dsimp only
    rw [← h.others.2, ← (hfresh _).2]

theorem Composed.perform (h : t.Composed) (step : Step) : (t.perform step).Composed := by
  cases step with
  | customBlocks cs => exact h.addCustomBlocks cs
  | modules ms => exact h.addModules ms

theorem after_composed (limits : SynthesisLimits) (steps : List Step) :
    (after limits steps).Composed := by
  have hrun : ∀ t : Toolbox, t.Composed → (steps.foldl Toolbox.perform t).Composed := by
    induction steps with
    | nil => exact fun t h => h
    | cons step steps ih => exact fun t h => ih _ (h.perform step)
  exact hrun _ (composed_new limits)

end Toolbox

/-! ### Callers and the functions they call -/

/-- The type is registered, and its block has that shape and calls the function of the custom block
with its parameters. -/
def Registry.CallsFunction (r : Registry) (typeId : String) (shape : Shape) (c : CustomBlock) : Prop :=
  ∃ d call, r.lookup? typeId = some d ∧ d.schema.shape = shape ∧ d.rule = .call call ∧
    call.callee = c.safeName ∧ call.params = c.params

namespace CustomBlock

theorem shape_caller (c : CustomBlock) (t : String) (shape : Shape) :
    (c.caller t shape).schema.shape = shape := by
  show (c.rule.schema t shape).shape = shape
  rw [CallRule.schema_eq]
  rfl

theorem callee_rule (c : CustomBlock) : c.rule.callee = c.safeName := by rw [rule]

theorem params_rule (c : CustomBlock) : c.rule.params = c.params := by rw [rule]

end CustomBlock

namespace Toolbox

variable {t u : Toolbox} {c : CustomBlock}

theorem Composed.callsFunction (h : t.Composed) (hc : c ∈ t.customBlocks) {typeId : String}
    {shape : Shape} (hcaller : c.caller typeId shape ∈ c.callers) :
    t.registry.CallsFunction typeId shape c := by
  have hlookup := h.lookup?_caller hc hcaller
  rw [c.typeId_caller] at hlookup
  exact ⟨_, c.rule, hlookup, c.shape_caller typeId shape, rfl, c.callee_rule, c.params_rule⟩

theorem Composed.eq_of_safeName (h : t.Composed) {e : CustomBlock} (hc : c ∈ t.customBlocks)
    (he : e ∈ t.customBlocks) (hname : e.safeName = c.safeName) : e = c :=
  List.inj_on_of_nodup_map h.names he hc hname

theorem Composed.filter_safeName (h : t.Composed) (hc : c ∈ t.customBlocks) :
    (t.customBlocks.filter fun e => e.safeName = c.safeName) = [c] := by
  have hnodup : (t.customBlocks.filter fun e => e.safeName = c.safeName).Nodup :=
    (List.Nodup.of_map _ h.names).filter _
  refine List.perm_singleton.mp ((List.perm_ext_iff_of_nodup hnodup (List.nodup_singleton c)).mpr ?_)
  intro e
  rw [List.mem_filter, decide_eq_true_iff, List.mem_singleton]
  constructor
  · rintro ⟨he, hname⟩
    exact h.eq_of_safeName hc he hname
  · rintro rfl
    exact ⟨hc, rfl⟩

/-- The names of custom blocks are distinct identifiers, and each custom block has its two callers.
The prologue is one function for each custom block that is kept. There are no other callers, and each
calls the function of one custom block, with the parameters that it has there. If no parameter and no
body breaks a row, the head of that function is the only row of the prologue that begins a function
of its name. -/
theorem callers_agree_with_prologue (limits : SynthesisLimits) (steps : List Step)
    (options : Options) :
    let t := after limits steps
    let prologue := CustomBlock.prologue options t.customBlocks
    (t.customBlocks.map CustomBlock.safeName).Nodup ∧
    (∀ c ∈ t.customBlocks, Text.IsIdentifier c.safeName ∧
      t.registry.CallsFunction ("myblock_call_" ++ c.safeName) .statement c ∧
      t.registry.CallsFunction ("myblock_expr_" ++ c.safeName) .expression c) ∧
    (∃ codes, List.Forall₂
        (fun c code => CustomBlock.Defines options c.safeName c.params c.body code)
        t.customBlocks codes ∧ prologue = String.join codes) ∧
    ∀ typeId d, t.registry.lookup? typeId = some d → typeId.startsWith "myblock_" = true →
      ∃ c ∈ t.customBlocks, ∃ call,
        (typeId = "myblock_call_" ++ c.safeName ∨ typeId = "myblock_expr_" ++ c.safeName) ∧
        d.rule = .call call ∧ call.callee = c.safeName ∧ call.params = c.params ∧
        (∀ e ∈ t.customBlocks, e.safeName = call.callee → e = c) ∧
        (options.Tidy → (∀ e ∈ t.customBlocks, e.Tidy) →
          (Text.rows prologue).filter (·.startsWith ("def " ++ call.callee ++ "(")) =
            ["def " ++ call.callee ++ "(" ++ Text.joinWith ", " call.params ++ "):"]) := by
  intro t prologue
  have h : t.Composed := after_composed limits steps
  refine ⟨h.names, fun c hc => ⟨Text.isIdentifier_safeName c.name, ?_, ?_⟩,
    CustomBlock.prologue_defines options t.customBlocks, ?_⟩
  · exact h.callsFunction hc (CustomBlock.mem_callers.mpr (.inl rfl))
  · exact h.callsFunction hc (CustomBlock.mem_callers.mpr (.inr rfl))
  · intro typeId d hd hlead
    have htype : d.typeId = typeId := Registry.typeId_of_lookup? hd
    obtain ⟨c, hc, hcaller⟩ := h.mem_callers_iff.mp ⟨Registry.mem_of_lookup? hd, htype ▸ hlead⟩
    refine ⟨c, hc, c.rule, ?_, CustomBlock.rule_of_mem_callers hcaller, c.callee_rule, c.params_rule,
      fun e he => h.eq_of_safeName hc he, fun hoptions htidy => ?_⟩
    · rw [← htype]
      exact CustomBlock.typeId_of_mem_callers hcaller
    · have hrows := CustomBlock.filter_rows_prologue hoptions htidy (Text.isIdentifier_safeName c.name)
      rw [c.callee_rule, c.params_rule]
      exact hrows.trans (congrArg _ (h.filter_safeName hc))

def doubleBlock : CustomBlock :=
  { name := "double", params := ["x"], body := "y = x\n\nreturn x + y" }

/-- A function, and one of the same name that comes too late. -/
def doubleSteps : List Step :=
  [.customBlocks [doubleBlock], .customBlocks [{ name := "double", params := ["z"] }]]

theorem callers_agree_with_prologue_double :
    CustomBlock.prologue {} (after {} doubleSteps).customBlocks =
      "def double(x):\n  y = x\n\n  return x + y\n\n" ∧
    (Text.rows (CustomBlock.prologue {} (after {} doubleSteps).customBlocks)).filter
      (·.startsWith ("def " ++ "double" ++ "(")) =
        ["def " ++ "double" ++ "(" ++ Text.joinWith ", " ["x"] ++ "):"] := by
  have hblocks : (after {} doubleSteps).customBlocks = [doubleBlock] := rfl
  refine ⟨by rw [hblocks]; decide +kernel, ?_⟩
  obtain ⟨-, hcallers, -, honly⟩ := callers_agree_with_prologue {} doubleSteps {}
  obtain ⟨-, ⟨d, -, hlookup, -⟩, -⟩ :=
    hcallers doubleBlock (hblocks ▸ List.mem_singleton_self doubleBlock)
  obtain ⟨c, hc, call, -, -, hcallee, hparams, -, hrows⟩ :=
    honly _ d hlookup (doubleBlock.isCallerType_callType)
  rw [hblocks] at hc
  obtain rfl := List.mem_singleton.mp hc
  have hname : call.callee = "double" := hcallee
  rw [hname, hparams] at hrows
  have hpads : ∀ c ∈ ({} : Options).indent.toList, c = ' ' ∨ c = '\t' := fun c hc =>
    .inl (List.eq_of_mem_replicate (n := 2) hc)
  refine hrows ⟨by decide, hpads, by decide +kernel⟩ fun e he => ?_
  rw [hblocks] at he
  obtain rfl := List.mem_singleton.mp he
  exact ⟨by decide, by decide +kernel⟩

/-! ### The same toolbox again -/

theorem limits_perform (t : Toolbox) (step : Step) : (t.perform step).limits = t.limits := by
  cases step with
  | customBlocks cs =>
    show (cs.foldl addCustomBlock t).limits = t.limits
    induction cs generalizing t with
    | nil => rfl
    | cons c cs ih => exact ih (t.addCustomBlock c)
  | modules ms => rfl

theorem limits_after (limits : SynthesisLimits) (steps : List Step) :
    (after limits steps).limits = limits := by
  have hrun : ∀ t : Toolbox, (steps.foldl perform t).limits = t.limits := by
    induction steps with
    | nil => exact fun t => rfl
    | cons step steps ih => exact fun t => (ih _).trans (t.limits_perform step)
  exact hrun _

theorem customBlocks_addCustomBlocks {cs : List CustomBlock}
    (h : ((t.customBlocks ++ cs).map CustomBlock.safeName).Nodup) :
    (t.addCustomBlocks cs).customBlocks = t.customBlocks ++ cs := by
  induction cs generalizing t with
  | nil => exact (List.append_nil _).symm
  | cons c cs ih =>
    have hnew : (t.addCustomBlock c).customBlocks = t.customBlocks ++ [c] := by
      refine customBlocks_addCustomBlock_of_new fun e he hname => ?_
      rw [List.map_append, List.nodup_append] at h
      exact h.2.2 _ (List.mem_map_of_mem he) _ (List.mem_map_of_mem List.mem_cons_self) hname
    rw [List.append_cons, ← hnew] at h ⊢
    exact ih h

theorem modules_addCustomBlocks (t : Toolbox) (cs : List CustomBlock) :
    (t.addCustomBlocks cs).modules = t.modules := by
  induction cs generalizing t with
  | nil => rfl
  | cons c cs ih => exact ih (t.addCustomBlock c)

theorem modules_addModules_of_none (h : t.modules = []) (ms : List ModuleDescriptor) :
    (t.addModules ms).modules = ms := by
  show t.modules ++ ms.filter (fun m => !t.modules.any fun known => known.name = m.name) = ms
  simp [h]

theorem Composed.category_of_mem (h : t.Composed) {d : Definition} (hd : d ∈ t.registry.definitions)
    (hcaller : isCallerType d.typeId = true) : d.schema.category = CustomBlock.categoryName := by
  obtain ⟨c, -, hmem⟩ := h.mem_callers_iff.mp ⟨hd, hcaller⟩
  exact CustomBlock.category_of_mem_callers hmem

theorem Composed.filter_category (h : t.Composed) {name : String}
    (hname : name ≠ CustomBlock.categoryName) :
    t.registry.definitions.filter (fun d => d.schema.category = name) =
      (t.registry.part fun x => !isCallerType x).filter fun d => d.schema.category = name := by
  rw [Registry.part, List.filter_filter]
  refine List.filter_congr fun d hd => ?_
  cases hcaller : isCallerType d.typeId with
  | false => simp
  | true => simp [h.category_of_mem hd hcaller, hname.symm]

theorem Composed.stock_eq (h : t.Composed) (h' : u.Composed)
    (hothers : (t.registry.part fun x => !isCallerType x) = u.registry.part fun x => !isCallerType x) :
    Palette.stock t.registry = Palette.stock u.registry := by
  have hsection : ∀ s ∈ Palette.sections, Palette.sectionOf t.registry s.1 s.2 =
      Palette.sectionOf u.registry s.1 s.2 := by
    intro s hs
    -- Else the order of callers among the other blocks would show.
    have hname : s.1 ≠ CustomBlock.categoryName := by
      revert s
      decide +kernel
    have hfilter := h.filter_category hname
    rw [hothers, ← h'.filter_category hname] at hfilter
    rw [Palette.sectionOf_eq, Palette.sectionOf_eq, hfilter]
  rw [Palette.stock, Palette.stock, List.map_congr_left hsection]

theorem Composed.lookup?_eq (h : t.Composed) (h' : u.Composed)
    (hcustom : t.customBlocks = u.customBlocks)
    (hothers : (t.registry.part fun x => !isCallerType x) = u.registry.part fun x => !isCallerType x)
    (typeId : String) : t.registry.lookup? typeId = u.registry.lookup? typeId := by
  cases hcaller : isCallerType typeId with
  | true =>
    refine Registry.lookup?_of_part_eq ?_ hcaller
    rw [h.callers, h'.callers, hcustom]
  | false => exact Registry.lookup?_of_part_eq hothers (by simp [hcaller])

/-- A toolbox with the custom blocks and the modules that another one keeps defines the same types, keeps
the same, and has the same palette. -/
theorem after_rebuilt (limits : SynthesisLimits) (steps : List Step) :
    let t := after limits steps
    let rebuilt := (({ limits } : Toolbox).addCustomBlocks t.customBlocks).addModules t.modules
    (∀ typeId, rebuilt.registry.lookup? typeId = t.registry.lookup? typeId) ∧
      rebuilt.customBlocks = t.customBlocks ∧ rebuilt.modules = t.modules ∧
      rebuilt.categories = t.categories := by
  intro t rebuilt
  have h : t.Composed := after_composed limits steps
  have h' : rebuilt.Composed :=
    ((composed_new limits).addCustomBlocks t.customBlocks).addModules t.modules
  have hcustom : rebuilt.customBlocks = t.customBlocks := customBlocks_addCustomBlocks h.names
  have hmodules : rebuilt.modules = t.modules :=
    modules_addModules_of_none (modules_addCustomBlocks _ t.customBlocks) t.modules
  have hlimits : rebuilt.limits = t.limits :=
    (limits_after limits [.customBlocks t.customBlocks, .modules t.modules]).trans
      (limits_after limits steps).symm
  have hothers := h'.others
  rw [hmodules, hlimits] at hothers
  have hparts := hothers.1.trans h.others.1.symm
  refine ⟨h'.lookup?_eq h hcustom hparts, hcustom, hmodules, ?_⟩
  rw [categories, categories, h'.stock_eq h hparts, hcustom]
  exact congrArg _ (hothers.2.trans h.others.2.symm)

/-! ### The palette -/

theorem Composed.mem_others_iff (h : t.Composed) {d : Definition} :
    d ∈ t.registry.definitions ∧ isCallerType d.typeId = false ↔
      d ∈ (Synthesis.addModules Digest.md5 t.limits Registry.stock t.modules).1.definitions := by
  have hnone : (Synthesis.addModules Digest.md5 t.limits Registry.stock t.modules).1.part isCallerType
      = [] := by
    rw [Synthesis.part_addModules fun _ => isCallerType_of_isMemberType]
    exact Registry.part_stock_eq_nil fun _ hd => Catalogue.isCallerType_typeId hd
  have hpart : d ∈ (t.registry.part fun x => !isCallerType x) ↔
      d ∈ (Synthesis.addModules Digest.md5 t.limits Registry.stock t.modules).1.part
        fun x => !isCallerType x := by
    rw [h.others.1]
  rw [Registry.mem_part, Registry.mem_part, Bool.not_eq_true'] at hpart
  rw [hpart]
  refine ⟨And.left, fun hd => ⟨hd, ?_⟩⟩
  cases hcaller : isCallerType d.typeId with
  | false => rfl
  | true =>
    have hmem := Registry.mem_part.mpr ⟨hd, hcaller⟩
    rw [hnone] at hmem
    cases hmem

theorem mem_categories {category : Category} :
    category ∈ t.categories ↔ category ∈ Palette.stock t.registry ∨
      t.customBlocks ≠ [] ∧ category = CustomBlock.category t.customBlocks ∨
      category ∈ t.moduleCategories := by
  rw [categories, List.mem_append, List.mem_append, or_assoc]
  cases hcustom : t.customBlocks with
  | nil => simp
  | cons c cs => simp

theorem Composed.moduleCategories_eq (h : t.Composed) : t.moduleCategories =
    (Synthesis.addModules Digest.md5 t.limits Registry.stock t.modules).2 := h.others.2

theorem Composed.mem_all_of_stock (h : t.Composed) {d : Definition} (hd : d ∈ t.registry.definitions)
    (hstock : d.typeId ∈ Registry.stock.typeIds) : d ∈ Catalogue.all := by
  obtain ⟨e, he, htype⟩ := List.mem_map.mp hstock
  have hall : e ∈ Catalogue.all := by rwa [Registry.definitions_stock] at he
  have hcaller : isCallerType d.typeId = false := htype ▸ Catalogue.isCallerType_typeId hall
  have hlookup := Registry.within_addModules Digest.md5 t.limits Registry.stock t.modules e.typeId e
    (Registry.lookup?_of_mem he)
  rw [htype, Registry.lookup?_of_mem (h.mem_others_iff.mp ⟨hd, hcaller⟩)] at hlookup
  cases hlookup
  exact hall

theorem Composed.listed_of_registered (h : t.Composed) {d : Definition}
    (hd : d ∈ t.registry.definitions) : ∃ category ∈ t.categories, d.typeId ∈ category.types := by
  cases hcaller : isCallerType d.typeId with
  | true =>
    obtain ⟨c, hc, hmem⟩ := h.mem_callers_iff.mp ⟨hd, hcaller⟩
    refine ⟨_, mem_categories.mpr (.inr (.inl ⟨List.ne_nil_of_mem hc, rfl⟩)), ?_⟩
    exact CustomBlock.mem_category.mpr ⟨c, hc, CustomBlock.typeId_of_mem_callers hmem⟩
  | false =>
    have hmem := List.mem_map_of_mem (f := Definition.typeId) (h.mem_others_iff.mp ⟨hd, hcaller⟩)
    rcases (Synthesis.mem_typeIds_addModules t.modules).mp hmem with hstock | ⟨category, hc, hlisted⟩
    · have hcategory := Palette.category_mem_sections d (h.mem_all_of_stock hd hstock)
      obtain ⟨category, hc, hlisted⟩ := Palette.listed_of_mem_sections hd hcategory
      exact ⟨category, mem_categories.mpr (.inl hc), hlisted⟩
    · rw [← h.moduleCategories_eq] at hc
      exact ⟨category, mem_categories.mpr (.inr (.inr hc)), hlisted⟩

theorem Composed.registered_of_listed (h : t.Composed) {category : Category} {x : String}
    (hc : category ∈ t.categories) (hx : x ∈ category.types) : x ∈ t.registry.typeIds := by
  rcases mem_categories.mp hc with hc | ⟨-, rfl⟩ | hc
  · obtain ⟨name, colour, rfl⟩ := Palette.eq_sectionOf_of_mem_stock hc
    obtain ⟨d, hd, -, rfl⟩ := Palette.mem_sectionOf.mp hx
    exact List.mem_map_of_mem hd
  · obtain ⟨c, hc, hx⟩ := CustomBlock.mem_category.mp hx
    have hmem : x ∈ c.callers.map Definition.typeId := by
      rw [c.typeIds_callers]
      simpa using hx
    obtain ⟨d, hd, rfl⟩ := List.mem_map.mp hmem
    exact List.mem_map_of_mem (h.mem_callers_iff.mpr ⟨c, hc, hd⟩).1
  · rw [h.moduleCategories_eq] at hc
    have hmem := (Synthesis.mem_typeIds_addModules t.modules).mpr (.inr ⟨category, hc, hx⟩)
    obtain ⟨d, hd, rfl⟩ := List.mem_map.mp hmem
    exact List.mem_map_of_mem (h.mem_others_iff.mpr hd).1

theorem Composed.nodup_types (h : t.Composed) {category : Category} (hc : category ∈ t.categories) :
    category.types.Nodup := by
  rcases mem_categories.mp hc with hc | ⟨-, rfl⟩ | hc
  · obtain ⟨name, colour, rfl⟩ := Palette.eq_sectionOf_of_mem_stock hc
    rw [Palette.sectionOf_eq]
    exact Category.nodup_pushAll List.nodup_nil _
  · rw [CustomBlock.category_eq]
    exact Category.nodup_pushAll List.nodup_nil _
  · rw [h.moduleCategories_eq] at hc
    exact Synthesis.nodup_addModules t.modules category hc

/-- The palette lists the types that are registered and no others, and no category lists one twice. -/
theorem categories_list_registered (limits : SynthesisLimits) (steps : List Step) :
    let t := after limits steps
    (∀ typeId, typeId ∈ t.registry.typeIds ↔
      ∃ category ∈ t.categories, typeId ∈ category.types) ∧
    ∀ category ∈ t.categories, category.types.Nodup := by
  intro t
  have h : t.Composed := after_composed limits steps
  refine ⟨fun typeId => ⟨?_, ?_⟩, fun category => h.nodup_types⟩
  · intro hmem
    obtain ⟨d, hd, rfl⟩ := List.mem_map.mp hmem
    exact h.listed_of_registered hd
  · rintro ⟨category, hc, hx⟩
    exact h.registered_of_listed hc hx

end Toolbox

end Blockwright
