import Blockwright.Compile
import Blockwright.Proofs.Forest

/-!
# The walk over a forest

The code of a block depends on the code of the blocks that hang on it and on nothing else that was
met before (`Site.rule_congr`). In a forest the walk meets no block twice and its fuel does not run
out, so the code of blocks and chains satisfies plain equations: `Compiler.emit_eq` and
`Compiler.chain_eq`. Of several stacks the first one at fault decides (`Compiler.stackTexts_cases`).
-/

namespace Blockwright

/-! ### What a rule looks at -/

namespace Site

/-- The same block, with other code for the blocks that hang on it. -/
def withCode (site : Site) (emit : BlockId → Except Fault Emission)
    (chain : BlockId → Except Fault String) : Site := { site with emit, chain }

section Congruence

variable {site : Site} {emit : BlockId → Except Fault Emission}
  {chain : BlockId → Except Fault String}
  (h : ∀ slot c, site.block.inputs.get? slot = some c → site.emit c = emit c ∧ site.chain c = chain c)
include h

theorem value?_congr (slot : String) (required : Precedence) :
    site.value? slot required = (site.withCode emit chain).value? slot required := by
  unfold value? withCode
  cases hc : site.block.inputs.get? slot with
  | none => rfl
  | some c => dsimp only; rw [(h slot c hc).1]

theorem value_congr (slot : String) (required : Precedence) :
    site.value slot required = (site.withCode emit chain).value slot required := by
  rw [value, value, value?_congr h]; rfl

theorem suite_congr (slot : String) : site.suite slot = (site.withCode emit chain).suite slot := by
  unfold suite withCode
  cases hc : site.block.inputs.get? slot with
  | none => rfl
  | some c => dsimp only; rw [(h slot c hc).2]

theorem piece_congr (p : Piece) : site.piece p = (site.withCode emit chain).piece p := by
  cases p with
  | value slot required => exact value_congr h slot required
  | clause lead slot => rw [piece, piece, value?_congr h]
  | suite slot => exact suite_congr h slot
  | _ => rfl

theorem pieces_congr (ps : List Piece) : site.pieces ps = (site.withCode emit chain).pieces ps := by
  induction ps with
  | nil => rfl
  | cons p ps ih => rw [pieces, pieces, piece_congr h, ih]

theorem template_congr (t : Template) : site.template t = (site.withCode emit chain).template t := by
  cases t with
  | statement ps => rw [template, template, pieces_congr h]
  | expression produced ps => rw [template, template, pieces_congr h]
  | number name => rfl
  | binary family =>
    rw [template, template, value_congr h, value_congr h]
    rfl

theorem values?_congr (slots : List String) :
    site.values? slots = (site.withCode emit chain).values? slots := by
  induction slots with
  | nil => rfl
  | cons slot slots ih => rw [values?, values?, value?_congr h, ih]

theorem values_congr (slots : List String) :
    site.values slots = (site.withCode emit chain).values slots := by
  induction slots with
  | nil => rfl
  | cons slot slots ih => rw [values, values, value_congr h, ih]

/-- A rule looks at the code of the blocks that hang on the block. -/
theorem rule_congr (r : Rule) : site.rule r = (site.withCode emit chain).rule r := by
  cases r with
  | template t => exact template_congr h t
  | call call =>
    rw [rule, rule, arguments, arguments, values?_congr h]
    rfl
  | method m =>
    rw [rule, rule, value_congr h, values_congr h]
    rfl
  | constant text => rfl

end Congruence

end Site

namespace Compiler

open Workspace

variable {c : Compiler} {id : BlockId}

/-! ### Fuel and the blocks met before -/

theorem chainFrom_congr {emit emit' : BlockId → Except Fault Emission} (hf : c.workspace.Forest)
    {fuel : Nat} {seen : List BlockId} (h : ∀ j, c.workspace.AboveEq id j → emit j = emit' j) :
    c.chainFrom emit fuel seen id = c.chainFrom emit' fuel seen id := by
  induction fuel generalizing id seen with
  | zero => rfl
  | succ fuel ih =>
    rw [chainFrom, chainFrom]
    split
    · rfl
    · rw [h id .refl]
      congr 1
      funext emission
      cases hb : c.workspace.get? id with
      | none => simp [Workspace.get, hb, bind, Except.bind]
      | some b =>
        rw [get_of_get? hb]
        simp only [bind, Except.bind]
        cases hn : b.next with
        | none => rfl
        | some next =>
          have ht := (target?_of_get? hb .next).trans hn
          dsimp only
          rw [ih fun j hj => h j (.head ⟨.next, (hf.linked ..).mp ht⟩ hj)]

/-- The chain does not depend on the fuel, nor on blocks that are not part of it. -/
theorem chainFrom_indep {emit : BlockId → Except Fault Emission} (hf : c.workspace.Forest)
    {fuel fuel' : Nat} {seen seen' : List BlockId} (hid : c.workspace.Live id)
    (hfuel : c.workspace.height id < fuel) (hfuel' : c.workspace.height id < fuel')
    (hseen : ∀ a ∈ seen, ¬ c.workspace.AboveEq id a)
    (hseen' : ∀ a ∈ seen', ¬ c.workspace.AboveEq id a) :
    c.chainFrom emit fuel seen id = c.chainFrom emit fuel' seen' id := by
  induction fuel generalizing id seen seen' fuel' with
  | zero => omega
  | succ fuel ih =>
    obtain ⟨fuel', rfl⟩ : ∃ n, fuel' = n + 1 := ⟨fuel' - 1, by omega⟩
    obtain ⟨b, hb⟩ := hid
    rw [chainFrom, chainFrom, if_neg fun hm => hseen id hm .refl,
      if_neg fun hm => hseen' id hm .refl]
    congr 1
    funext emission
    rw [get_of_get? hb]
    simp only [bind, Except.bind]
    cases hn : b.next with
    | none => rfl
    | some next =>
      have ht := (target?_of_get? hb .next).trans hn
      have habove := hf.above_target ht
      have hlt := hf.height_lt_of_above habove
      have hfresh : ∀ seen : List BlockId, (∀ a ∈ seen, ¬ c.workspace.AboveEq id a) →
          ∀ a ∈ id :: seen, ¬ c.workspace.AboveEq next a := by
        intro seen hseen a ha hna
        rcases List.mem_cons.mp ha with rfl | ha
        · exact hf.acyclic _ (Relation.TransGen.trans_left habove hna)
        · exact hseen a ha ((Relation.TransGen.to_reflTransGen habove).trans hna)
      have hrest : c.chainFrom emit fuel (id :: seen) next = c.chainFrom emit fuel' (id :: seen') next :=
        ih (hf.live_target ht) (by omega) (by omega) (hfresh seen hseen) (hfresh seen' hseen')
      dsimp only
      rw [hrest]

/-- The code of a block does not depend on the fuel, nor on blocks that are not part of it. -/
theorem emitFrom_indep (hf : c.workspace.Forest) {fuel fuel' : Nat} {active active' : List BlockId}
    (hid : c.workspace.Live id) (hfuel : c.workspace.height id < fuel)
    (hfuel' : c.workspace.height id < fuel')
    (hactive : ∀ a ∈ active, ¬ c.workspace.AboveEq id a)
    (hactive' : ∀ a ∈ active', ¬ c.workspace.AboveEq id a) :
    c.emitFrom fuel active id = c.emitFrom fuel' active' id := by
  induction fuel generalizing id active active' fuel' with
  | zero => omega
  | succ fuel ih =>
    obtain ⟨fuel', rfl⟩ : ∃ n, fuel' = n + 1 := ⟨fuel' - 1, by omega⟩
    obtain ⟨b, hb⟩ := hid
    rw [emitFrom, emitFrom, if_neg fun hm => hactive id hm .refl,
      if_neg fun hm => hactive' id hm .refl, get_of_get? hb]
    simp only [bind, Except.bind]
    cases c.registry.lookup b.typeId with
    | error fault => rfl
    | ok d =>
      dsimp only
      refine Site.rule_congr (fun slot child hchild => ?_) d.rule
      have ht : c.workspace.target? id (.input slot) = some child :=
        (target?_of_get? hb (.input slot)).trans hchild
      have habove := hf.above_target ht
      have hbelow : ∀ j, c.workspace.AboveEq child j → c.workspace.Above id j := fun j hj =>
        Relation.TransGen.trans_left habove hj
      have hfresh : ∀ active : List BlockId, (∀ a ∈ active, ¬ c.workspace.AboveEq id a) →
          ∀ j, c.workspace.Above id j → ∀ a ∈ id :: active, ¬ c.workspace.AboveEq j a := by
        intro active hactive j hj a ha hja
        rcases List.mem_cons.mp ha with rfl | ha
        · exact hf.acyclic _ (Relation.TransGen.trans_left hj hja)
        · exact hactive a ha (hj.to_reflTransGen.trans hja)
      have hemit : ∀ j, c.workspace.Above id j →
          c.emitFrom fuel (id :: active) j = c.emitFrom fuel' (id :: active') j := by
        intro j hj
        have hlt := hf.height_lt_of_above hj
        exact ih hj.live (by omega) (by omega) (hfresh active hactive j hj)
          (hfresh active' hactive' j hj)
      exact ⟨hemit child habove, chainFrom_congr hf fun j hj => hemit j (hbelow j hj)⟩

/-! ### The equations -/

/-- The code of a block, from the code of the blocks that hang on it. -/
theorem emit_eq (hf : c.workspace.Forest) {b : Block} (hb : c.workspace.get? id = some b) :
    c.emit id = (do
      let d ← c.registry.lookup b.typeId
      Site.rule { options := c.options, schema := d.schema, block := b, emit := c.emit,
                  chain := c.chain } d.rule) := by
  have hlt := hf.height_lt ⟨b, hb⟩
  obtain ⟨n, hn⟩ : ∃ n, c.workspace.capacity = n + 1 := ⟨c.workspace.capacity - 1, by omega⟩
  rw [emit, hn, emitFrom, if_neg (by simp), get_of_get? hb]
  simp only [bind, Except.bind]
  cases c.registry.lookup b.typeId with
  | error fault => rfl
  | ok d =>
    dsimp only
    refine Site.rule_congr (fun slot child hchild => ?_) d.rule
    have ht : c.workspace.target? id (.input slot) = some child :=
      (target?_of_get? hb (.input slot)).trans hchild
    have habove := hf.above_target ht
    have hemit : ∀ j, c.workspace.Above id j → c.emitFrom n [id] j = c.emit j := by
      intro j hj
      have hlt := hf.height_lt_of_above hj
      refine emitFrom_indep hf hj.live (by omega) (hf.height_lt hj.live) (fun a ha hja => ?_)
        (by simp)
      rw [List.mem_singleton.mp ha] at hja
      exact hf.acyclic _ (Relation.TransGen.trans_left hj hja)
    exact ⟨hemit child habove,
      chainFrom_congr hf fun j hj => hemit j (Relation.TransGen.trans_left habove hj)⟩

/-- The code of a chain: the code of its first block, then the code of the rest. -/
theorem chain_eq (hf : c.workspace.Forest) {b : Block} (hb : c.workspace.get? id = some b) :
    c.chain id = (do
      let emission ← c.emit id
      match b.next with
      | none => return emission.line
      | some next => return emission.line ++ (← c.chain next)) := by
  have hlt := hf.height_lt ⟨b, hb⟩
  obtain ⟨n, hn⟩ : ∃ n, c.workspace.capacity = n + 1 := ⟨c.workspace.capacity - 1, by omega⟩
  rw [chain, chainWith, hn, chainFrom, if_neg (by simp)]
  congr 1
  funext emission
  rw [get_of_get? hb]
  simp only [bind, Except.bind]
  cases hnext : b.next with
  | none => rfl
  | some next =>
    have ht := (target?_of_get? hb .next).trans hnext
    have habove := hf.above_target ht
    have hlt' := hf.height_lt_of_above habove
    have hrest : c.chainFrom c.emit n [id] next = c.chain next := by
      refine chainFrom_indep hf (hf.live_target ht) (by omega) (hf.height_lt (hf.live_target ht))
        (fun a ha hna => ?_) (by simp)
      rw [List.mem_singleton.mp ha] at hna
      exact hf.acyclic _ (Relation.TransGen.trans_left habove hna)
    dsimp only
    rw [hrest]

/-! ### Stacks -/

theorem stackTexts_eq_mapM (c : Compiler) (roots : List BlockId) :
    c.stackTexts roots = roots.mapM c.chain := by
  induction roots with
  | nil => rfl
  | cons root roots ih => rw [stackTexts, List.mapM_cons, ih]

/-- Either all stacks have code, or the first one that has none is at fault for all. -/
theorem stackTexts_cases (c : Compiler) (roots : List BlockId) :
    (∃ codes, c.stackTexts roots = .ok codes ∧
      List.Forall₂ (fun root code => c.chain root = .ok code) roots codes) ∨
    ∃ before root after fault, c.stackTexts roots = .error fault ∧ roots = before ++ root :: after ∧
      (∀ r ∈ before, ∃ code, c.chain r = .ok code) ∧ c.chain root = .error fault := by
  induction roots with
  | nil => exact .inl ⟨[], rfl, .nil⟩
  | cons root roots ih =>
    rw [stackTexts]
    cases hroot : c.chain root with
    | error fault => exact .inr ⟨[], root, roots, fault, rfl, rfl, by simp, hroot⟩
    | ok code =>
      rcases ih with ⟨codes, htexts, hall⟩ | ⟨before, bad, after, fault, htexts, rfl, hbefore, hbad⟩
      · exact .inl ⟨code :: codes, by rw [htexts]; rfl, .cons hroot hall⟩
      · refine .inr ⟨root :: before, bad, after, fault, by rw [htexts]; rfl, rfl, ?_, hbad⟩
        exact List.forall_mem_cons.mpr ⟨⟨code, hroot⟩, hbefore⟩

end Compiler

end Blockwright
