import Blockwright.Proofs.History
import Blockwright.Proofs.Reading
import Blockwright.Proofs.Registration
import Blockwright.Proofs.Splitting
import Blockwright.Proofs.Walk

/-!
# Switching between the two ways to show arguments

A switch rewrites the fields of one call (`Edit.toggled_eq`). The walk reads the fields of a block
nowhere but at the block itself, so the code of a workspace stays what it was if the call writes the
same arguments for the same blocks in its sockets (`Compiler.emitFrom_update`). What a call writes is
one text as long as no socket is plugged, and one value for each parameter otherwise, so the two
directions of a switch rely on different conditions. Main statement:
`Edit.toggleArguments_keeps_code`.
-/

namespace Blockwright

/-! ### The fields of a call -/

theorem expandedField_injective : Function.Injective expandedField :=
  append_toString_injective "ARG_"

namespace Edit

open Text

theorem get?_insertExpanded_of_ne {name : String} (values : List String) (fields : Dict String)
    (start : Nat) (h : ∀ i, start ≤ i → i < start + values.length → name ≠ expandedField i) :
    (insertExpanded fields start values).get? name = fields.get? name := by
  induction values generalizing fields start with
  | nil => rfl
  | cons value values ih =>
    have hrest : ∀ i, start + 1 ≤ i → i < start + 1 + values.length → name ≠ expandedField i := by
      intro i hi hlt
      exact h i (by omega) (by rw [List.length_cons]; omega)
    have hhead := h start (Nat.le_refl _) (by simp)
    rw [insertExpanded, ih _ _ hrest, Dict.get?_insert, if_neg hhead.symm]

theorem get?_insertExpanded (values : List String) (fields : Dict String) (start i : Nat) :
    i < values.length →
      (insertExpanded fields start values).get? (expandedField (start + i)) = values[i]? := by
  induction values generalizing fields start i with
  | nil => exact nofun
  | cons value values ih =>
    intro hi
    rw [insertExpanded]
    cases i with
    | zero =>
      show (insertExpanded (fields.insert (expandedField start) value) (start + 1) values).get?
        (expandedField start) = some value
      rw [get?_insertExpanded_of_ne, Dict.get?_insert, if_pos rfl]
      intro i hi _ heq
      have := expandedField_injective heq
      omega
    | succ i =>
      rw [show start + (i + 1) = start + 1 + i by omega, ih _ _ _ (by simpa using hi)]
      rfl

theorem get?_eraseExpanded_of_ne {name : String} (fields : Dict String) (count : Nat)
    (h : ∀ i < count, name ≠ expandedField i) :
    (eraseExpanded fields count).get? name = fields.get? name := by
  have hfold : ∀ (is : List Nat) (fields : Dict String), (∀ i ∈ is, name ≠ expandedField i) →
      (is.foldl (fun fields i => fields.erase (expandedField i)) fields).get? name =
        fields.get? name := by
    intro is
    induction is with
    | nil => exact fun fields _ => rfl
    | cons i is ih =>
      intro fields h
      obtain ⟨hi, hrest⟩ := List.forall_mem_cons.mp h
      rw [List.foldl_cons, ih _ hrest, Dict.get?_erase, if_neg hi.symm]
  exact hfold _ fields fun i hi => h i (List.mem_range.mp hi)

end Edit

/-- The other way to show arguments. -/
def ArgMode.other : ArgMode → ArgMode
  | compact => expanded
  | expanded => compact

namespace Edit

open Text Workspace

variable {registry : Registry} {ws : Workspace} {id : BlockId} {b : Block} {d : Definition}
  {call : CallRule}

/-- A call in its other way to show arguments. -/
def toggled (params : List String) (b : Block) : Block :=
  match b.mode with
  | .compact => expandArguments params b
  | .expanded => compactArguments params b

theorem apply_toggleArguments (hb : ws.get? id = some b) (hd : registry.lookup? b.typeId = some d)
    (hrule : d.rule = .call call) :
    (toggleArguments registry id).apply ws =
      if call.params = [] then (.error (.notToggleable b.typeId), ws)
      else (.ok b.mode.other, ws.update id (toggled call.params)) := by
  have hcall : d.callRule? = some call := by rw [Definition.callRule?, hrule]
  have hput : ws.put id (toggled call.params b) = ws.update id (toggled call.params) := by
    simp [update, hb]
  rw [toggleArguments, apply_bind_ok (apply_block_ok hb),
    apply_bind_ok (by rw [apply_lift, Registry.lookup_of_lookup? hd]), hcall]
  dsimp only
  by_cases hnone : call.params = []
  · rw [if_pos (List.isEmpty_iff.mpr hnone), if_pos hnone]
    rfl
  · rw [if_neg (mt List.isEmpty_iff.mp hnone), if_neg hnone, ← hput, toggled]
    cases b.mode <;> rfl

/-- Only the way to show arguments and the fields for them change. -/
theorem toggled_eq (params : List String) (b : Block) :
    ∃ fields, toggled params b = { b with fields, mode := b.mode.other } ∧
      ∀ name, name ≠ argsField → (∀ i < params.length, name ≠ expandedField i) →
        fields.get? name = b.fields.get? name := by
  rw [toggled]
  cases b.mode with
  | compact =>
    refine ⟨_, rfl, fun name hargs hsingle => ?_⟩
    rw [get?_insertExpanded_of_ne, Dict.get?_erase, if_neg hargs.symm]
    intro i _ hi
    exact hsingle i (by rwa [Arguments.expand, Arguments.length_fill, Nat.zero_add] at hi)
  | expanded =>
    refine ⟨_, rfl, fun name hargs hsingle => ?_⟩
    rw [Dict.get?_insert, if_neg hargs.symm, get?_eraseExpanded_of_ne _ _ hsingle]

end Edit

/-! ### The code of a workspace with one block changed -/

namespace Compiler

open Workspace

variable {registry : Registry} {ws : Workspace} {options : Options} {id : BlockId}
  {f : Block → Block}

theorem exhausted_update (j : BlockId) : (ws.update id f).exhausted j = ws.exhausted j := by
  rw [exhausted, exhausted, get?_update]
  by_cases hj : id = j
  · rw [if_pos hj]
    cases ws.get? j <;> rfl
  · rw [if_neg hj]

theorem get_update (j : BlockId) :
    (ws.update id f).get j = (ws.get j).map fun b => if id = j then f b else b := by
  rw [Workspace.get, Workspace.get, get?_update]
  by_cases hj : id = j
  · simp only [if_pos hj]
    cases ws.get? j <;> rfl
  · simp only [if_neg hj]
    cases ws.get? j <;> rfl

theorem chainFrom_update (hnext : ∀ b, (f b).next = b.next) (emit : BlockId → Except Fault Emission)
    (fuel : Nat) (seen : List BlockId) (j : BlockId) :
    chainFrom ⟨registry, ws.update id f, options⟩ emit fuel seen j =
      chainFrom ⟨registry, ws, options⟩ emit fuel seen j := by
  induction fuel generalizing seen j with
  | zero => rw [chainFrom, chainFrom, exhausted_update]
  | succ fuel ih =>
    rw [chainFrom, chainFrom]
    split
    · rfl
    · congr 1
      funext emission
      rw [get_update]
      cases ws.get j with
      | error fault => rfl
      | ok b =>
        have hsame : (if id = j then f b else b).next = b.next := by split <;> simp [hnext]
        simp only [Except.map, bind, Except.bind, hsame]
        cases b.next with
        | none => rfl
        | some next => simp only [ih]

/-- A block may change as long as its type, its links and what its rule makes of it stay. -/
theorem emitFrom_update (htype : ∀ b, (f b).typeId = b.typeId) (hnext : ∀ b, (f b).next = b.next)
    (hrule : ∀ b d, ws.get? id = some b → registry.lookup? b.typeId = some d → ∀ emit chain,
      Site.rule ⟨options, d.schema, f b, emit, chain⟩ d.rule =
        Site.rule ⟨options, d.schema, b, emit, chain⟩ d.rule)
    (fuel : Nat) (active : List BlockId) (j : BlockId) :
    emitFrom ⟨registry, ws.update id f, options⟩ fuel active j =
      emitFrom ⟨registry, ws, options⟩ fuel active j := by
  induction fuel generalizing active j with
  | zero => rw [emitFrom, emitFrom, exhausted_update]
  | succ fuel ih =>
    have hemit : emitFrom ⟨registry, ws.update id f, options⟩ fuel (j :: active) =
        emitFrom ⟨registry, ws, options⟩ fuel (j :: active) := funext (ih (j :: active))
    have hchain : ∀ emit, chainWith ⟨registry, ws.update id f, options⟩ emit =
        chainWith ⟨registry, ws, options⟩ emit := by
      intro emit
      funext head
      rw [chainWith, chainWith, capacity_update, chainFrom_update hnext]
    rw [emitFrom, emitFrom]
    split
    · rfl
    · simp only [get_update, hemit, hchain]
      cases hb : ws.get? j with
      | none => rw [Workspace.get, hb]; rfl
      | some b =>
        rw [get_of_get? hb]
        have hsame : (if id = j then f b else b).typeId = b.typeId := by split <;> simp [htype]
        simp only [Except.map, bind, Except.bind, hsame]
        cases hd : registry.lookup? b.typeId with
        | none => rw [Registry.lookup_of_lookup?_none hd]
        | some d =>
          rw [Registry.lookup_of_lookup? hd]
          dsimp only
          by_cases hj : id = j
          · rw [if_pos hj]
            exact hrule b d (hj ▸ hb) hd _ _
          · rw [if_neg hj]

end Compiler

/-! ### The arguments of a call -/

/-- The rule is the call, and the slots are those that calls have. -/
structure Definition.IsCall (d : Definition) (call : CallRule) : Prop where
  rule : d.rule = .call call
  slots : d.schema.slots = (call.schema d.typeId d.schema.shape).slots

namespace Site

open Text

variable {site : Site} {call : CallRule} {sockets : List (Option String)}

/-- A socket has code just if a block is plugged into it. -/
theorem values?_plugged {slots : List String} (h : site.values? slots = .ok sockets) :
    List.Forall₂ (fun slot code => code.isSome = (site.block.inputs.get? slot).isSome) slots
      sockets := by
  induction slots generalizing sockets with
  | nil => cases h; exact .nil
  | cons slot slots ih =>
    obtain ⟨code, hvalue, h⟩ := bind_eq_ok_iff.mp h
    obtain ⟨codes, hrest, h⟩ := bind_eq_ok_iff.mp h
    cases h
    refine .cons ?_ (ih hrest)
    rw [value?] at hvalue
    cases hchild : site.block.inputs.get? slot with
    | none => rw [hchild] at hvalue; cases hvalue; rfl
    | some child =>
      rw [hchild] at hvalue
      obtain ⟨e, -, hvalue⟩ := bind_eq_ok_iff.mp hvalue
      cases e with
      | statement code => cases hvalue
      | expression code produced => cases hvalue; rfl

theorem isSome_socket {count : Nat}
    (h : site.values? ((List.range count).map socketSlot) = .ok sockets) :
    sockets.length = count ∧ ∀ (i : Nat) (hi : i < sockets.length),
      sockets[i].isSome = (site.block.inputs.get? (socketSlot i)).isSome := by
  obtain ⟨hlength, hget⟩ := List.forall₂_iff_get.mp (values?_plugged h)
  rw [List.length_map, List.length_range] at hlength
  refine ⟨hlength.symm, fun i hi => ?_⟩
  have hsocket := hget i (by simpa [hlength] using hi) hi
  simpa using hsocket

theorem overlay_of_none {values : List String} (hlength : sockets.length = values.length)
    (h : ∀ socket ∈ sockets, socket = none) : overlay sockets values = values := by
  induction sockets generalizing values with
  | nil => cases values with
    | nil => rfl
    | cons v values => cases hlength
  | cons socket sockets ih =>
    cases values with
    | nil => cases hlength
    | cons v values =>
      obtain ⟨rfl, hrest⟩ := List.forall_mem_cons.mp h
      rw [overlay, List.zipWith_cons_cons, ← overlay, ih (Nat.succ.inj hlength) hrest]
      rfl

/-- A call shows the text for its arguments as it is; as long as there is none, the names of the
parameters stand for it. -/
theorem field_argsField (hne : call.params ≠ [])
    (hslots : site.schema.slots = (call.schema site.schema.typeId site.schema.shape).slots) :
    site.field argsField =
      (site.block.fields.get? argsField).getD (joinWith ", " call.params) := by
  have hfield : call.hasArgField = true := by simp [CallRule.hasArgField, hne]
  have hslot : site.schema.slot? argsField =
      some ⟨argsField, .literal .text, some (joinWith ", " call.params)⟩ := by
    rw [Schema.slot?, hslots, CallRule.slots_schema, if_pos hfield]
    simp
  rw [field, Schema.presetText, hslot]
  cases site.block.fields.get? argsField <;> rfl

theorem values?_of_inputs {site' : Site} (hid : site'.block.id = site.block.id)
    (hinputs : site'.block.inputs = site.block.inputs) (hemit : site'.emit = site.emit)
    (slots : List String) : site'.values? slots = site.values? slots := by
  induction slots with
  | nil => rfl
  | cons slot slots ih =>
    have hvalue : site'.value? slot .loosest = site.value? slot .loosest := by
      rw [value?, value?, hid, hinputs, hemit]
    rw [values?, values?, hvalue, ih]

/-- A call writes the same code if it writes the same arguments for the code in its sockets. -/
theorem rule_call_congr {site' : Site} (hschema : site'.schema = site.schema)
    (hid : site'.block.id = site.block.id) (hinputs : site'.block.inputs = site.block.inputs)
    (hemit : site'.emit = site.emit)
    (h : ∀ sockets, site.values? ((List.range call.params.length).map socketSlot) = .ok sockets →
      site'.writeArguments call sockets = site.writeArguments call sockets) :
    site'.rule (.call call) = site.rule (.call call) := by
  rw [rule, rule, arguments_eq, arguments_eq, values?_of_inputs hid hinputs hemit, hschema]
  cases hsockets : site.values? ((List.range call.params.length).map socketSlot) with
  | error fault => rfl
  | ok sockets =>
    simp only [bind, Except.bind]
    rw [h sockets hsockets]

theorem writeArguments_expanded (hmode : site.block.mode = .expanded) (hne : call.params ≠ []) :
    site.writeArguments call sockets =
      Arguments.compact (overlay sockets (Edit.expandedValues call.params site.block)) := by
  rw [writeArguments, if_pos ⟨hmode, hne⟩]
  rfl

theorem writeArguments_compact (hmode : site.block.mode = .compact) (hne : call.params ≠ []) :
    site.writeArguments call sockets =
      if sockets.all Option.isNone then site.compactArguments call
      else Arguments.compact
        (overlay sockets (Arguments.expand (site.compactArguments call) call.params)) := by
  have hfield : call.hasArgField = true := by simp [CallRule.hasArgField, hne]
  rw [writeArguments, if_neg (by simp [hmode]), hfield]
  rfl

end Site

namespace Edit

open Text Site

variable {site : Site} {call : CallRule} {params : List String} {b : Block}

theorem isBlank_of_mem_expandedValues (hparams : ∀ p ∈ params, isBlank p = false) :
    ∀ v ∈ expandedValues params b, isBlank v = false := by
  intro v hv
  obtain ⟨i, hi, rfl⟩ := List.mem_mapIdx.mp hv
  cases hwritten : writtenField? b (expandedField i) with
  | none => exact hparams _ (List.getElem_mem hi)
  | some text =>
    rw [writtenField?, Option.filter_eq_some_iff] at hwritten
    simpa using hwritten.2

/-- The fields for single arguments show just the values that were put there. -/
theorem expandedValues_expandArguments (hparams : ∀ p ∈ params, isBlank p = false) (b : Block) :
    expandedValues params (expandArguments params b) =
      Arguments.expand ((writtenField? b argsField).getD (joinWith ", " params)) params := by
  set values := Arguments.expand ((writtenField? b argsField).getD (joinWith ", " params)) params
  have hlength : values.length = params.length := Arguments.length_fill ..
  refine List.ext_getElem (by rw [expandedValues, List.length_mapIdx, hlength]) fun i hi hi' => ?_
  have hget : (expandArguments params b).fields.get? (expandedField i) = some values[i] := by
    have hput := get?_insertExpanded values (b.fields.erase argsField) 0 i hi'
    rwa [Nat.zero_add, List.getElem?_eq_getElem hi'] at hput
  have hfilled : isBlank values[i] = false :=
    Arguments.isBlank_of_mem_expand hparams _ (List.getElem_mem hi')
  simp only [expandedValues, List.getElem_mapIdx, writtenField?, hget, Option.filter_some, hfilled,
    Bool.not_false, if_true, Option.getD_some]

section Rule

variable (site) (hne : call.params ≠ []) (hparams : ∀ p ∈ call.params, Arguments.IsParam p)
  (hslots : site.schema.slots = (call.schema site.schema.typeId site.schema.shape).slots)
include hne hparams hslots

theorem rule_compactArguments (hmode : site.block.mode = .expanded)
    (hfree : ∀ i < call.params.length, site.block.inputs.get? (socketSlot i) = none) :
    Site.rule { site with block := compactArguments call.params site.block } (.call call) =
      site.rule (.call call) := by
  refine rule_call_congr rfl rfl rfl rfl fun sockets hsockets => ?_
  obtain ⟨hlength, hplugged⟩ := isSome_socket hsockets
  have hnone : ∀ socket ∈ sockets, socket = none := by
    intro socket hsocket
    obtain ⟨i, hi, rfl⟩ := List.getElem_of_mem hsocket
    have hempty := hplugged i hi
    rw [hfree i (hlength ▸ hi)] at hempty
    simpa using hempty
  set values := expandedValues call.params site.block
  have hcount : values.length = call.params.length := List.length_mapIdx
  obtain ⟨v, hv⟩ := List.exists_mem_of_length_pos
    (hcount ▸ List.length_pos_iff.mpr hne : 0 < values.length)
  have hfilled : isBlank (Arguments.compact values) = false :=
    Arguments.isBlank_compact hv
      (isBlank_of_mem_expandedValues (fun p hp => (hparams p hp).filled) v hv)
  have hfield : Site.field { site with block := compactArguments call.params site.block } argsField =
      Arguments.compact values := by
    refine (field_argsField hne ?_).trans ?_
    · exact hslots
    · rw [compactArguments, Dict.get?_insert, if_pos rfl]
      rfl
  rw [writeArguments_expanded hmode hne, overlay_of_none (hlength.trans hcount.symm) hnone,
    writeArguments_compact rfl hne, if_pos (List.all_eq_true.mpr fun s hs => by simp [hnone s hs]),
    Site.compactArguments, hfield, hfilled]
  rfl

/-- Both texts that can stand for a missing or blank one give each parameter its own name. -/
theorem expand_compactArguments :
    Arguments.expand (site.compactArguments call) call.params =
      Arguments.expand ((writtenField? site.block argsField).getD (joinWith ", " call.params))
        call.params := by
  have hnames : Arguments.expand (joinWith ", " call.params) call.params = call.params :=
    Arguments.expand_compact_params hparams
  obtain ⟨p, hp⟩ := List.exists_mem_of_ne_nil _ hne
  have hfilled : isBlank (joinWith ", " call.params) = false :=
    Arguments.isBlank_compact hp (hparams p hp).filled
  rw [Site.compactArguments, field_argsField hne hslots, writtenField?]
  cases site.block.fields.get? argsField with
  | none => simp [hfilled]
  | some text =>
    cases hblank : isBlank text with
    | false => simp [hblank, Option.filter]
    | true =>
      simp only [Option.getD_some, hblank, if_true, Option.filter_some, Bool.not_true,
        Bool.false_eq_true, if_false, Option.getD_none]
      cases call.fallback with
      | nothing => rw [hnames]; exact Arguments.expand_empty call.params
      | paramNames => rfl

theorem rule_expandArguments (hmode : site.block.mode = .compact)
    (hplug : ∃ i < call.params.length, (site.block.inputs.get? (socketSlot i)).isSome = true) :
    Site.rule { site with block := expandArguments call.params site.block } (.call call) =
      site.rule (.call call) := by
  refine rule_call_congr rfl rfl rfl rfl fun sockets hsockets => ?_
  obtain ⟨hlength, hplugged⟩ := isSome_socket hsockets
  obtain ⟨i, hi, hsome⟩ := hplug
  have hsocket := hplugged i (hlength ▸ hi)
  have hsome' : sockets.all Option.isNone = false := by
    rw [List.all_eq_false]
    refine ⟨_, List.getElem_mem (hlength ▸ hi : i < sockets.length), ?_⟩
    rw [Option.isNone_iff_eq_none]
    exact Option.isSome_iff_ne_none.mp (hsocket.trans hsome)
  rw [writeArguments_compact hmode hne, hsome', writeArguments_expanded rfl hne,
    expandedValues_expandArguments (fun p hp => (hparams p hp).filled),
    ← expand_compactArguments site hne hparams hslots]
  rfl

end Rule

open Workspace

/-- If the call writes the same code for the same sockets, all blocks have the code they had. -/
theorem emit_toggled {registry : Registry} {ws : Workspace} {options : Options} {id : BlockId}
    {d : Definition} (hb : ws.get? id = some b) (hd : registry.lookup? b.typeId = some d)
    (hcall : d.IsCall call)
    (hrule : ∀ emit chain,
      Site.rule ⟨options, d.schema, toggled call.params b, emit, chain⟩ (.call call) =
        Site.rule ⟨options, d.schema, b, emit, chain⟩ (.call call)) (j : BlockId) :
    Compiler.emit ⟨registry, ws.update id (toggled call.params), options⟩ j =
      Compiler.emit ⟨registry, ws, options⟩ j := by
  rw [Compiler.emit, Compiler.emit, capacity_update]
  refine Compiler.emitFrom_update (fun b => ?_) (fun b => ?_) (fun b' d' hb' hd' => ?_) ..
  · obtain ⟨fields, htoggled, -⟩ := toggled_eq call.params b
    rw [htoggled]
  · obtain ⟨fields, htoggled, -⟩ := toggled_eq call.params b
    rw [htoggled]
  · cases hb.symm.trans hb'
    cases hd.symm.trans hd'
    rw [hcall.rule]
    exact hrule

/-- A call with parameters can be switched, and only its way to show arguments and the fields for
them change, whatever its fields hold. Its code stays what it was, and with it the code of every
block, if the arguments are put together while no socket is plugged, or cut up while one is. -/
theorem toggleArguments_keeps_code (registry : Registry) (ws : Workspace) (options : Options)
    (id : BlockId) (b : Block) (d : Definition) (call : CallRule) (hb : ws.get? id = some b)
    (hd : registry.lookup? b.typeId = some d) (hcall : d.IsCall call)
    (hparams : ∀ p ∈ call.params, Arguments.IsParam p) :
    let result := (toggleArguments registry id).apply ws
    let emit := fun ws => Compiler.emit { registry, workspace := ws, options }
    let count := call.params.length
    (result.1 = if call.params = [] then .error (.notToggleable b.typeId) else .ok b.mode.other) ∧
    (b.mode = .expanded → (∀ i < count, b.inputs.get? (socketSlot i) = none) →
      ∀ j, emit result.2 j = emit ws j) ∧
    (b.mode = .compact → (∃ i < count, (b.inputs.get? (socketSlot i)).isSome = true) →
      ∀ j, emit result.2 j = emit ws j) ∧
    result.2.top = ws.top ∧ result.2.capacity = ws.capacity ∧
    (∀ j, j ≠ id → result.2.get? j = ws.get? j) ∧
    ∃ fields, result.2.get? id = some { b with
        fields, mode := if call.params = [] then b.mode else b.mode.other } ∧
      ∀ name, name ≠ argsField → (∀ i < count, name ≠ expandedField i) →
        fields.get? name = b.fields.get? name := by
  intro result emit count
  have hresult := apply_toggleArguments hb hd hcall.rule
  by_cases hne : call.params = []
  · rw [if_pos hne] at hresult
    simp only [result, hresult, if_pos hne]
    exact ⟨trivial, fun _ _ _ => trivial, fun _ _ _ => trivial, trivial, trivial, fun _ _ => trivial,
      b.fields, hb, fun _ _ _ => rfl⟩
  · rw [if_neg hne] at hresult
    simp only [result, hresult, if_neg hne]
    obtain ⟨fields, htoggled, hfields⟩ := toggled_eq call.params b
    refine ⟨trivial, fun hmode hfree => ?_, fun hmode hplug => ?_, top_update .., capacity_update ..,
      fun j hj => ?_, fields, ?_, hfields⟩
    · refine emit_toggled hb hd hcall fun emit chain => ?_
      rw [toggled, hmode]
      exact rule_compactArguments ⟨options, d.schema, b, emit, chain⟩ hne hparams hcall.slots
        hmode hfree
    · refine emit_toggled hb hd hcall fun emit chain => ?_
      rw [toggled, hmode]
      exact rule_expandArguments ⟨options, d.schema, b, emit, chain⟩ hne hparams hcall.slots
        hmode hplug
    · rw [get?_update, if_neg hj.symm]
    · rw [get?_update, if_pos rfl, hb, Option.map_some, htoggled]

/-- A call with an open bracket in its text and a block in its second socket, and one with a single
field and no block. -/
theorem toggleArguments_keeps_code_both :
    let call : CallRule := { callee := "f", params := ["a", "b"], fallback := .paramNames }
    let registry := Registry.empty.registerAll
      [⟨call.schema "f" .expression, .call call⟩, ⟨Schema.expression "k", .constant "k"⟩]
    let plugged : Workspace :=
      { blocks :=
          #[some { id := ⟨0⟩, typeId := "f", fields := Dict.empty.insert "ARGS" "1, [",
                   inputs := Dict.empty.insert "IN1" ⟨1⟩ },
            some { id := ⟨1⟩, typeId := "k" }] }
    let bare : Workspace :=
      { blocks :=
          #[some { id := ⟨0⟩, typeId := "f", mode := .expanded,
                   fields := Dict.empty.insert "ARG_0" "g(1, 2)" }] }
    let emit := fun ws => Compiler.emit { registry, workspace := ws, options := {} } ⟨0⟩
    let toggle := fun ws => ((toggleArguments registry ⟨0⟩).apply ws).2
    emit plugged = .ok (.expression "f(1, k)" .functionCall) ∧
    emit (toggle plugged) = emit plugged ∧
    emit bare = .ok (.expression "f(g(1, 2), b)" .functionCall) ∧ emit (toggle bare) = emit bare := by
  intro call registry plugged bare emit toggle
  have hparams : ∀ p ∈ call.params, Arguments.IsParam p := by decide +kernel
  have hcall : Definition.IsCall ⟨call.schema "f" .expression, .call call⟩ call := ⟨rfl, rfl⟩
  have hd : registry.lookup? "f" = some ⟨call.schema "f" .expression, .call call⟩ := by
    decide +kernel
  have hplugged := toggleArguments_keeps_code registry plugged {} ⟨0⟩ _ _ call rfl hd hcall hparams
  have hbare := toggleArguments_keeps_code registry bare {} ⟨0⟩ _ _ call rfl hd hcall hparams
  exact ⟨by decide +kernel, hplugged.2.2.1 rfl ⟨1, by decide, by decide⟩ ⟨0⟩, by decide +kernel,
    hbare.2.1 rfl (fun _ _ => rfl) ⟨0⟩⟩

end Edit

end Blockwright
