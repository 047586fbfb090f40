import Blockwright.Proofs.Registration
import Blockwright.Proofs.Typing
import Blockwright.Proofs.Walk

/-!
# Which workspaces have a program

In a typed forest over sound definitions, a block of a registered type has code, with a value if its
shape promises one (`Compiler.emit_ok`). A block of an unregistered type hangs nowhere and carries
nothing, so it is a stack of its own, and such stacks are all that can go wrong in a workspace that
was made by edits.
-/

namespace Blockwright

/-- Code that can stand in a value slot. -/
def Emission.IsValue (e : Emission) : Prop := ∃ code produced, e = .expression code produced

theorem Emission.isValue_ofShape {shape : Shape} (h : shape.fitsValue = true) (code : String)
    (produced : Precedence) : (Emission.ofShape shape code produced).IsValue := by
  cases shape with
  | statement => simp [Shape.fitsValue] at h
  | expression => exact ⟨code, produced, rfl⟩
  | hybrid => exact ⟨code, produced, rfl⟩

/-! ### Rules -/

namespace Site

variable {site : Site}

/-- The block in the slot, if there is one, has a value. -/
def Supplied (site : Site) (slot : String) : Prop :=
  ∀ c, site.block.inputs.get? slot = some c → ∃ e, site.emit c = .ok e ∧ e.IsValue

/-- The chains in all slots have code. -/
def Chained (site : Site) : Prop :=
  ∀ slot c, site.block.inputs.get? slot = some c → ∃ code, site.chain c = .ok code

theorem value?_ok {slot : String} (h : site.Supplied slot) (required : Precedence) :
    ∃ code?, site.value? slot required = .ok code? := by
  unfold value?
  cases hc : site.block.inputs.get? slot with
  | none => exact ⟨none, rfl⟩
  | some c =>
    obtain ⟨e, he, code, produced, rfl⟩ := h c hc
    dsimp only
    rw [he]
    exact ⟨_, rfl⟩

theorem value_ok {slot : String} (h : site.Supplied slot) (required : Precedence) :
    ∃ code, site.value slot required = .ok code := by
  obtain ⟨code?, hcode⟩ := value?_ok h required
  exact ⟨_, by rw [value, hcode]; rfl⟩

theorem suite_ok (h : site.Chained) (slot : String) : ∃ code, site.suite slot = .ok code := by
  have hindent : ∀ body, ∃ code,
      (if Text.isBlank body then pure (site.options.indent ++ site.options.placeholder ++ "\n")
        else pure (Text.indentLines site.options.indent body) : Except Fault String) = .ok code := by
    intro body
    split
    · exact ⟨_, rfl⟩
    · exact ⟨_, rfl⟩
  rw [suite]
  cases hc : site.block.inputs.get? slot with
  | none => exact hindent ""
  | some c =>
    obtain ⟨body, hbody⟩ := h slot c hc
    dsimp only
    rw [hbody]
    exact hindent body

theorem piece_ok {p : Piece} (hv : ∀ slot, p.valueSlot? = some slot → site.Supplied slot)
    (hc : site.Chained) : ∃ code, site.piece p = .ok code := by
  cases p with
  | value slot required => exact value_ok (hv slot rfl) required
  | clause lead slot =>
    obtain ⟨code?, hcode⟩ := value?_ok (hv slot rfl) .loosest
    rw [piece, hcode]
    cases code? with
    | none => exact ⟨"", rfl⟩
    | some code => exact ⟨lead ++ code, rfl⟩
  | suite slot => exact suite_ok hc slot
  | _ => exact ⟨_, rfl⟩

theorem pieces_ok {ps : List Piece}
    (hv : ∀ slot ∈ ps.filterMap Piece.valueSlot?, site.Supplied slot) (hc : site.Chained) :
    ∃ code, site.pieces ps = .ok code := by
  induction ps with
  | nil => exact ⟨"", rfl⟩
  | cons p ps ih =>
    obtain ⟨code, hcode⟩ := piece_ok (p := p) (fun slot hslot =>
      hv slot (List.mem_filterMap.mpr ⟨p, List.mem_cons_self, hslot⟩)) hc
    obtain ⟨rest, hrest⟩ := ih fun slot hslot => hv slot (by
      obtain ⟨q, hq, hslot⟩ := List.mem_filterMap.mp hslot
      exact List.mem_filterMap.mpr ⟨q, List.mem_cons_of_mem _ hq, hslot⟩)
    exact ⟨code ++ rest, by rw [pieces, hcode, hrest]; rfl⟩

theorem values?_ok {slots : List String} (h : ∀ slot ∈ slots, site.Supplied slot) :
    ∃ codes, site.values? slots = .ok codes := by
  induction slots with
  | nil => exact ⟨[], rfl⟩
  | cons slot slots ih =>
    obtain ⟨code, hcode⟩ := value?_ok (h slot List.mem_cons_self) .loosest
    obtain ⟨codes, hcodes⟩ := ih fun s hs => h s (List.mem_cons_of_mem _ hs)
    exact ⟨code :: codes, by rw [values?, hcode, hcodes]; rfl⟩

theorem values_ok {slots : List String} (h : ∀ slot ∈ slots, site.Supplied slot) :
    ∃ codes, site.values slots = .ok codes := by
  induction slots with
  | nil => exact ⟨[], rfl⟩
  | cons slot slots ih =>
    obtain ⟨code, hcode⟩ := value_ok (h slot List.mem_cons_self) .loosest
    obtain ⟨codes, hcodes⟩ := ih fun s hs => h s (List.mem_cons_of_mem _ hs)
    exact ⟨code :: codes, by rw [values, hcode, hcodes]; rfl⟩

theorem arguments_ok {call : CallRule}
    (h : ∀ slot ∈ (List.range call.params.length).map socketSlot, site.Supplied slot) :
    ∃ code, site.arguments call = .ok code := by
  obtain ⟨sockets, hsockets⟩ := values?_ok h
  rw [arguments, hsockets]
  simp only [bind, Except.bind]
  split
  · exact ⟨_, rfl⟩
  · split
    · exact ⟨_, rfl⟩
    · split
      · exact ⟨_, rfl⟩
      · exact ⟨_, rfl⟩

theorem template_ok {t : Template} (hv : ∀ slot ∈ t.valueSlots, site.Supplied slot)
    (hc : site.Chained) :
    ∃ e, site.template t = .ok e ∧ ((Rule.template t).isStatement = false → e.IsValue) := by
  cases t with
  | statement ps =>
    obtain ⟨code, hcode⟩ := pieces_ok hv hc
    exact ⟨.statement code, by rw [template, hcode]; rfl, by simp [Rule.isStatement]⟩
  | expression produced ps =>
    obtain ⟨code, hcode⟩ := pieces_ok hv hc
    exact ⟨.expression code produced, by rw [template, hcode]; rfl, fun _ => ⟨_, _, rfl⟩⟩
  | number name => exact ⟨_, rfl, fun _ => ⟨_, _, rfl⟩⟩
  | binary family =>
    obtain ⟨a, ha⟩ := value_ok (hv "A" (by simp [Template.valueSlots]))
      (family.precedence (site.field "OP")).operands.1
    obtain ⟨b, hb⟩ := value_ok (hv "B" (by simp [Template.valueSlots]))
      (family.precedence (site.field "OP")).operands.2
    exact ⟨_, by rw [template]; simp only [ha, hb]; rfl, fun _ => ⟨_, _, rfl⟩⟩

/-- A rule writes code if the slots that it reads as values hold values and all chains have code. -/
theorem rule_ok {r : Rule} (hv : ∀ slot ∈ r.valueSlots, site.Supplied slot) (hc : site.Chained) :
    ∃ e, site.rule r = .ok e ∧
      (site.schema.shape.fitsValue = true → r.isStatement = false → e.IsValue) := by
  cases r with
  | template t =>
    obtain ⟨e, he, hvalue⟩ := template_ok hv hc
    exact ⟨e, he, fun _ => hvalue⟩
  | call call =>
    obtain ⟨args, hargs⟩ := arguments_ok hv
    exact ⟨_, by rw [rule, hargs]; rfl, fun h _ => Emission.isValue_ofShape h _ _⟩
  | method m =>
    obtain ⟨receiver, hreceiver⟩ := value_ok (hv m.receiver List.mem_cons_self) .member
    obtain ⟨args, hargs⟩ := values_ok fun s hs => hv s (List.mem_cons_of_mem _ hs)
    exact ⟨_, by rw [rule, hreceiver, hargs]; rfl, fun h _ => Emission.isValue_ofShape h _ _⟩
  | constant text => exact ⟨_, rfl, fun h _ => Emission.isValue_ofShape h _ _⟩

end Site

/-! ### Blocks and chains -/

namespace Compiler

open Workspace

variable {c : Compiler} {id : BlockId}

/-- All that the checked edits promise of a workspace and its registry. -/
structure Checked (c : Compiler) : Prop where
  forest : c.workspace.Forest
  typed : c.workspace.Typed c.registry
  sound : ∀ t d, c.registry.lookup? t = some d → d.Sound

/-- A block of a registered type has code and heads a chain that has code. -/
theorem Checked.emit_ok (h : c.Checked) {b : Block} {d : Definition}
    (hb : c.workspace.get? id = some b) (hd : c.registry.lookup? b.typeId = some d) :
    (∃ e, c.emit id = .ok e ∧ (d.schema.shape.fitsValue = true → e.IsValue)) ∧
      ∃ code, c.chain id = .ok code := by
  induction hn : c.workspace.height id using Nat.strong_induction_on generalizing id b d with
  | _ n ih =>
    subst hn
    -- what hangs at a link has a type that fits there, and code by induction
    have hbelow : ∀ link child, b.target? link = some child → ∃ dc : Definition,
        (∃ e, c.emit child = .ok e ∧ (dc.schema.shape.fitsValue = true → e.IsValue)) ∧
        (∃ code, c.chain child = .ok code) ∧
        ∀ slot, link = .input slot → ∃ target, d.schema.slot? slot = some target ∧
          Edit.misfit? target.kind dc.schema.shape = none := by
      intro link child hchild
      have ht := (target?_of_get? hb link).trans hchild
      obtain ⟨tp, tc, htp, htc, dp, dc, hdp, hdc, hlink⟩ := h.typed id link child ht
      obtain ⟨cb, hcb, rfl⟩ := Option.map_eq_some_iff.mp htc
      have hlt := h.forest.height_lt_of_above (h.forest.above_target ht)
      obtain ⟨hemit, hchain⟩ := ih _ hlt hcb hdc rfl
      refine ⟨dc, hemit, hchain, fun slot hslot => ?_⟩
      subst hslot
      cases (type?_of_get? hb).symm.trans htp
      cases hd.symm.trans hdp
      exact hlink
    have hemit : ∃ e, c.emit id = .ok e ∧ (d.schema.shape.fitsValue = true → e.IsValue) := by
      have hsound := h.sound _ d hd
      rw [emit_eq h.forest hb, Registry.lookup_of_lookup? hd]
      set site : Site := { options := c.options, schema := d.schema, block := b, emit := c.emit,
                           chain := c.chain }
      have hsupplied : ∀ slot ∈ d.rule.valueSlots, site.Supplied slot := by
        intro slot hslot child hchild
        obtain ⟨dc, ⟨e, he, hvalue⟩, -, hfit⟩ := hbelow (.input slot) child hchild
        obtain ⟨target, htarget, hfit⟩ := hfit slot rfl
        have hnot := hsound.values slot hslot
        rw [htarget] at hnot
        cases hkind : target.kind with
        | body => simp [hkind] at hnot
        | literal kind => simp [hkind, Edit.misfit?] at hfit
        | value => exact ⟨e, he, hvalue (by simpa [hkind, Edit.misfit?] using hfit)⟩
      have hchained : site.Chained := fun slot child hchild => by
        obtain ⟨dc, -, hchain, -⟩ := hbelow (.input slot) child hchild
        exact hchain
      obtain ⟨e, he, hvalue⟩ := Site.rule_ok hsupplied hchained
      exact ⟨e, he, fun hfits => hvalue hfits (hsound.output hfits)⟩
    refine ⟨hemit, ?_⟩
    obtain ⟨e, he, -⟩ := hemit
    rw [chain_eq h.forest hb, he]
    cases hnext : b.next with
    | none => exact ⟨_, rfl⟩
    | some next =>
      obtain ⟨dn, -, ⟨code, hcode⟩, -⟩ := hbelow .next next hnext
      exact ⟨_, by simp only [bind, Except.bind, hcode]; rfl⟩

theorem chain_unregistered (hf : c.workspace.Forest) {b : Block}
    (hb : c.workspace.get? id = some b) (hd : c.registry.lookup? b.typeId = none) :
    c.chain id = .error (.unknownType b.typeId) := by
  rw [chain_eq hf hb, emit_eq hf hb, Registry.lookup_of_lookup?_none hd]
  rfl

theorem Checked.contains_of_chain_ok (h : c.Checked) {b : Block} {code : String}
    (hb : c.workspace.get? id = some b) (hcode : c.chain id = .ok code) :
    c.registry.contains b.typeId = true := by
  cases hd : c.registry.lookup? b.typeId with
  | none => cases (chain_unregistered h.forest hb hd).symm.trans hcode
  | some d => simp [Registry.contains, hd]

/-- Only a block of the top level can be of an unregistered type. -/
theorem Checked.parent?_of_unregistered (h : c.Checked) {b : Block}
    (hb : c.workspace.get? id = some b) (hd : c.registry.lookup? b.typeId = none) :
    c.workspace.parent? id = none := by
  cases hpar : c.workspace.parent? id with
  | none => rfl
  | some at? =>
    obtain ⟨p, link⟩ := at?
    obtain ⟨tp, tc, htp, htc, dp, dc, hdp, hdc, -⟩ :=
      h.typed p link id ((h.forest.linked p link id).mpr hpar)
    cases (type?_of_get? hb).symm.trans htc
    rw [hd] at hdc
    cases hdc

/-- Stacks of registered types have code; otherwise the first stack of an unregistered type is at
fault. -/
theorem Checked.stackTexts_cases (h : c.Checked) {roots : List BlockId}
    (hlive : ∀ root ∈ roots, c.workspace.Live root) :
    ((∃ texts, c.stackTexts roots = .ok texts) ∧
      ∀ root ∈ roots, ∀ b, c.workspace.get? root = some b → c.registry.contains b.typeId = true) ∨
    ∃ before root after b, roots = before ++ root :: after ∧
      (∀ id ∈ before, ∀ b, c.workspace.get? id = some b → c.registry.contains b.typeId = true) ∧
      c.workspace.get? root = some b ∧ c.registry.contains b.typeId = false ∧
      c.stackTexts roots = .error (.unknownType b.typeId) := by
  rcases c.stackTexts_cases roots with
    ⟨texts, htexts, hall⟩ | ⟨before, root, after, fault, htexts, rfl, hbefore, hroot⟩
  · refine .inl ⟨⟨texts, htexts⟩, fun root hroot b hb => ?_⟩
    obtain ⟨i, hi, rfl⟩ := List.getElem_of_mem hroot
    exact h.contains_of_chain_ok hb (hall.get hi (hall.length_eq ▸ hi))
  · obtain ⟨b, hb⟩ := hlive root (by simp)
    cases hd : c.registry.lookup? b.typeId with
    | some d =>
      obtain ⟨code, hcode⟩ := (h.emit_ok hb hd).2
      cases hroot.symm.trans hcode
    | none =>
      cases hroot.symm.trans (chain_unregistered h.forest hb hd)
      refine .inr ⟨before, root, after, b, rfl, fun id hid b' hb' => ?_, hb,
        by simp [Registry.contains, hd], htexts⟩
      obtain ⟨code, hcode⟩ := hbefore id hid
      exact h.contains_of_chain_ok hb' hcode

end Compiler

/-! ### Programs -/

namespace Workspace

variable {ws : Workspace}

theorem after_checked (digest : String → String) (growth : List Growth) (ops : List Operation)
    (options : Options) :
    let registry := Registry.stock.grown digest growth
    Compiler.Checked { registry, workspace := after registry ops, options } :=
  ⟨after_forest _ ops, after_typed _ ops, fun _ _ => Registry.sound_of_lookup?_grown⟩

/-- A workspace that was made by edits has a program exactly if the types of all its blocks are
registered. Otherwise the first stack whose type is not registered is at fault, for that reason and
for no other. -/
theorem program_ok_iff_registered (digest : String → String) (growth : List Growth)
    (ops : List Operation) (options : Options) :
    let registry := Registry.stock.grown digest growth
    let ws := after registry ops
    let program := Compiler.program { registry, workspace := ws, options }
    ((∃ code, program = .ok code) ↔ ∀ b ∈ ws.live, registry.contains b.typeId = true) ∧
    ∀ fault, program = .error fault → ∃ before root after b,
      ws.topBlocks = before ++ root :: after ∧
      (∀ id ∈ before, ∀ b, ws.get? id = some b → registry.contains b.typeId = true) ∧
      ws.get? root = some b ∧ registry.contains b.typeId = false ∧
      fault = .unknownType b.typeId := by
  intro registry ws program
  have h := after_checked digest growth ops options
  have hlive : ∀ root ∈ ws.topBlocks, ws.Live root := fun root hroot =>
    ((h.forest.mem_top root).mp (mem_topBlocks.mp hroot)).1
  rcases h.stackTexts_cases hlive with
    ⟨⟨texts, htexts⟩, hroots⟩ | ⟨before, root, after, b, htop, hbefore, hb, hun, herr⟩
  · have hprogram : program = .ok (Text.finish (Text.joinWith "\n" texts)) := by
      show Compiler.program _ = _
      rw [Compiler.program, htexts]; rfl
    refine ⟨⟨fun _ b hb => ?_, fun _ => ⟨_, hprogram⟩⟩, fun fault hfault => ?_⟩
    · obtain ⟨id, hid⟩ := mem_live_iff.mp hb
      by_contra hun
      have hnone : registry.lookup? b.typeId = none := by
        simpa [Registry.contains] using hun
      have hpar := h.parent?_of_unregistered hid hnone
      exact hun (hroots id (mem_topBlocks.mpr ((h.forest.mem_top id).mpr ⟨⟨b, hid⟩, hpar⟩)) b hid)
    · rw [hprogram] at hfault; cases hfault
  · have hprogram : program = .error (.unknownType b.typeId) := by
      show Compiler.program _ = _
      rw [Compiler.program, herr]; rfl
    refine ⟨⟨fun ⟨code, hcode⟩ => ?_, fun hall => ?_⟩, fun fault hfault => ?_⟩
    · rw [hprogram] at hcode; cases hcode
    · have := hall b (mem_live_iff.mpr ⟨root, hb⟩)
      rw [hun] at this; cases this
    · rw [hprogram] at hfault
      cases hfault
      exact ⟨before, root, after, b, htop, hbefore, hb, hun, rfl⟩

end Workspace

end Blockwright
