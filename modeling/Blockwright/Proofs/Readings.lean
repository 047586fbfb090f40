import Blockwright.Proofs.BlockTrees
import Blockwright.Proofs.Connections

/-!
# Readings of trees

The code of a tree of operators, literals and names reads as just that tree
(`Compiler.emit_reads_as_tree`). Above a block that the walk is at stand blocks with larger trees
(`Workspace.Inside`), so the walk never meets a block again and writes the tree of each
(`Compiler.emitFrom_writes`).
-/

namespace Blockwright

open Python

namespace Python.Tree

/-- Whether a tree has no attributes and no calls in it. -/
def isPlain : Tree → Bool
  | .unary _ e => e.isPlain
  | .binary _ a b => a.isPlain && b.isPlain
  | .subscript e i => e.isPlain && i.isPlain
  | .member _ _ => false
  | .call _ _ => false
  | _ => true

theorem clashes_of_isPlain {e : Tree} (h : e.isPlain = true) : e.clashes = false := by
  fun_induction isPlain e with
  | case1 op e ih => exact ih h
  | case2 op a b iha ihb =>
    rw [Bool.and_eq_true] at h
    rw [clashes, iha h.1, ihb h.2, Bool.or_false]
  | case3 e i ihe ihi =>
    rw [Bool.and_eq_true] at h
    rw [clashes, ihe h.1, ihi h.2, Bool.or_false]
  | case4 => cases h
  | case5 => cases h
  | case6 e => cases e <;> first | rfl | simp at *

end Python.Tree

namespace Workspace

variable {ws : Workspace} {id : BlockId} {b : Block} {k : Construct} {e e' : Tree} {n m : Nat}

theorem operand?_imp (htree : ∀ c e, ws.tree? n c = some e → ws.tree? m c = some e) (b : Block)
    (slot : String) (e : Tree) (h : ws.operand? n b slot = some e) :
    ws.operand? m b slot = some e := by
  unfold operand? at h ⊢
  cases hc : b.inputs.get? slot with
  | none => rw [hc] at h; exact h
  | some c => rw [hc] at h; exact htree c e h

theorem tree?_mono (h : ws.tree? n id = some e) (hnm : n ≤ m) : ws.tree? m id = some e := by
  induction n generalizing m id e with
  | zero => cases h
  | succ n ih =>
    obtain ⟨m, rfl⟩ : ∃ k, m = k + 1 := ⟨m - 1, by omega⟩
    obtain ⟨b, k, hb, hvalue, hk, h⟩ := tree?_succ.mp h
    have htree : ∀ c e, ws.tree? n c = some e → ws.tree? m c = some e := fun c e hc =>
      ih hc (by omega)
    exact tree?_succ.mpr ⟨b, k, hb, hvalue, hk, Construct.tree?_mono (operand?_imp htree b) h⟩

/-- A block has at most one tree. -/
theorem tree?_unique (hb : ws.get? id = some b) (hk : b.construct? = some k)
    (he : k.tree? (ws.operand? n b) = some e) (h : ws.tree? m id = some e') : e' = e := by
  cases m with
  | zero => cases h
  | succ m =>
    obtain ⟨b', k', hb', -, hk', h⟩ := tree?_succ.mp h
    cases hb.symm.trans hb'
    cases hk.symm.trans hk'
    have hleft : k.tree? (ws.operand? (max n m) b) = some e :=
      Construct.tree?_mono (operand?_imp (fun _ _ hc => tree?_mono hc (Nat.le_max_left n m)) b) he
    have hright : k.tree? (ws.operand? (max n m) b) = some e' :=
      Construct.tree?_mono (operand?_imp (fun _ _ hc => tree?_mono hc (Nat.le_max_right n m)) b) h
    exact Option.some.inj (hright.symm.trans hleft)

/-- A walk that is inside the blocks of a list has not met the tree `e` on its way. -/
structure Inside (ws : Workspace) (active : List BlockId) (e : Tree) : Prop where
  nodup : active.Nodup
  live : ∀ a ∈ active, ws.Live a
  larger : ∀ a ∈ active, ∀ n e', ws.tree? n a = some e' → sizeOf e < sizeOf e'

theorem Inside.cons {active : List BlockId} (h : ws.Inside active e) (hnew : id ∉ active)
    (hb : ws.get? id = some b) (hk : b.construct? = some k)
    (he : k.tree? (ws.operand? n b) = some e) (hlt : sizeOf e' < sizeOf e) :
    ws.Inside (id :: active) e' := by
  refine ⟨List.nodup_cons.mpr ⟨hnew, h.nodup⟩, List.forall_mem_cons.mpr ⟨⟨b, hb⟩, h.live⟩, ?_⟩
  refine List.forall_mem_cons.mpr ⟨fun m e'' he'' => ?_, fun a ha m e'' he'' => ?_⟩
  · rwa [tree?_unique hb hk he he'']
  · exact Nat.lt_trans hlt (h.larger a ha m e'' he'')

end Workspace

namespace Compiler

open Workspace

/-- A block is written as its tree if the blocks in its slots are. -/
theorem emitFrom_step {c : Compiler} (hstock : Registry.stock.Within c.registry) {depth : Nat}
    {id : BlockId} {b : Block} {k : Construct} {e : Tree} (hb : c.workspace.get? id = some b)
    (hk : b.construct? = some k) (he : k.tree? (c.workspace.operand? depth b) = some e) {fuel : Nat}
    {active : List BlockId} (hnew : id ∉ active)
    (hchild : ∀ child e', c.workspace.tree? depth child = some e' → sizeOf e' < sizeOf e →
      ∃ code produced, c.emitFrom fuel (id :: active) child = .ok (.expression code produced) ∧
        Writes produced.phrase code e' ∧ (e'.isWhole = true → produced = .atomic)) :
    ∃ d code, b.definition? = some d ∧
      c.emitFrom (fuel + 1) active id = .ok (.ofShape d.schema.shape code k.rung) ∧
      Writes k.rung.phrase code e := by
  obtain ⟨d, hd⟩ := Block.exists_of_construct? hk
  rw [emitFrom, if_neg hnew, get_of_get? hb]
  simp only [bind, Except.bind, Registry.lookup_of_lookup? (hstock _ d hd)]
  refine ⟨d, ?_⟩
  obtain ⟨code, hcode, hwrites⟩ : ∃ code, Site.rule ⟨c.options, d.schema, b,
      c.emitFrom fuel (id :: active), c.chainWith (c.emitFrom fuel (id :: active))⟩ d.rule =
        .ok (.ofShape d.schema.shape code k.rung) ∧ Writes k.rung.phrase code e := by
    refine Site.rule_writes hd rfl hk he fun slot hslot e' he' => ?_
    obtain ⟨e'', he'', hlt⟩ := Construct.sizeOf_lt_of_mem he hslot
    cases he'.symm.trans he''
    -- what stands in a slot is the preset text or a smaller tree
    unfold Site.Carries
    unfold operand? at he'
    dsimp only
    cases hc : b.inputs.get? slot with
    | none =>
      rw [hc] at he'
      have hpreset : b.presetTree? slot = some e' := he'
      rw [Block.presetTree?, b.definition?_eq, hd] at hpreset
      exact .preset hpreset
    | some child =>
      rw [hc] at he'
      exact hchild child e' he' hlt
  exact ⟨code, b.definition?_eq.trans hd, hcode, hwrites⟩

/-- The walk writes the tree of every block with a value. Above a block on its way stand blocks with
larger trees, so it does not come back to one of them. -/
theorem emitFrom_writes {c : Compiler} (hstock : Registry.stock.Within c.registry) {depth : Nat}
    {id : BlockId} {e : Tree} (he : c.workspace.tree? depth id = some e) {fuel : Nat}
    {active : List BlockId} (hfuel : c.workspace.capacity ≤ fuel + active.length)
    (hinside : c.workspace.Inside active e) :
    ∃ code produced, c.emitFrom fuel active id = .ok (.expression code produced) ∧
      Writes produced.phrase code e ∧ (e.isWhole = true → produced = .atomic) := by
  induction depth generalizing id e fuel active with
  | zero => cases he
  | succ depth ih =>
    have hnew : id ∉ active := fun hmem => Nat.lt_irrefl _ (hinside.larger id hmem _ e he)
    obtain ⟨b, k, hb, hvalue, hk, htree⟩ := tree?_succ.mp he
    have hcount : (id :: active).length ≤ c.workspace.capacity :=
      length_le_capacity (List.nodup_cons.mpr ⟨hnew, hinside.nodup⟩)
        (List.forall_mem_cons.mpr ⟨⟨b, hb⟩, hinside.live⟩)
    rw [List.length_cons] at hcount
    obtain ⟨fuel, rfl⟩ : ∃ k, fuel = k + 1 := ⟨fuel - 1, by omega⟩
    have hfuel : c.workspace.capacity ≤ fuel + (id :: active).length := by
      rw [List.length_cons]
      omega
    obtain ⟨d, code, hd, hcode, hwrites⟩ := emitFrom_step hstock hb hk htree hnew
      fun child e' he' hlt => ih he' hfuel (hinside.cons hnew hb hk htree hlt)
    have hshape : d.schema.shape.fitsValue = true := by simpa [Block.hasValue, hd] using hvalue
    rw [Emission.ofShape_of_fitsValue hshape] at hcode
    exact ⟨code, k.rung, hcode, hwrites, Construct.rung_of_isWhole htree⟩

/-- The code of a tree of operators, literals and names has exactly one reading in the grammar of
expressions, and that is the tree. Trees that differ in the grouping of chains of `and` and of `or` are
the same. -/
theorem emit_reads_as_tree (digest : String → String) (growth : List Growth) (ws : Workspace)
    (options : Options) (depth : Nat) (root : BlockId) (e : Tree)
    (h : ws.tree? depth root = some e) (hplain : e.isPlain = true) :
    ∃ code produced,
      Compiler.emit ⟨Registry.stock.grown digest growth, ws, options⟩ root =
        .ok (.expression code produced) ∧
      ∀ t, (∃ ts, Lexes code.toList ts ∧ Forms .disjunction ts t) ↔ t = e := by
  have hwithin := Registry.within_grown digest Registry.stock growth
  obtain ⟨code, produced, hemit, hwrites, -⟩ :
      ∃ code produced, Compiler.emit ⟨Registry.stock.grown digest growth, ws, options⟩ root =
        .ok (.expression code produced) ∧ Writes produced.phrase code e ∧
        (e.isWhole = true → produced = .atomic) :=
    emitFrom_writes hwithin h (Nat.le_refl _) ⟨.nil, by simp, by simp⟩
  refine ⟨code, produced, hemit, fun t => ?_⟩
  rw [hwrites.reading_iff]
  exact and_iff_left (Tree.clashes_of_isPlain hplain)

/-- A sign on the left of a power is bracketed, and one on its right is not: `(-y) ** -2`. -/
theorem emit_reads_as_tree_signs :
    let ws : Workspace :=
      { blocks :=
          #[some { id := ⟨0⟩, typeId := "python_arithmetic", fields := Dict.empty.insert "OP" "**",
                   inputs := (Dict.empty.insert "A" ⟨1⟩).insert "B" ⟨2⟩ },
            some { id := ⟨1⟩, typeId := "python_negate", inputs := Dict.empty.insert "VALUE" ⟨3⟩ },
            some { id := ⟨2⟩, typeId := "python_number", fields := Dict.empty.insert "NUM" "-2" },
            some { id := ⟨3⟩, typeId := "python_variable_get",
                   fields := Dict.empty.insert "VAR" "y" }]
        top := [⟨0⟩] }
    let e : Tree := .binary .pow (.unary .negate (.name "y")) (.unary .negate (.number "2"))
    ws.tree? 3 ⟨0⟩ = some e ∧ e.isPlain = true ∧
    ∃ code produced,
      Compiler.emit ⟨Registry.stock.grown (fun s => s) [], ws, {}⟩ ⟨0⟩ =
        .ok (.expression code produced) ∧
      ∀ t, (∃ ts, Lexes code.toList ts ∧ Forms .disjunction ts t) ↔ t = e := by
  intro ws e
  have htree : ws.tree? 3 ⟨0⟩ = some e := rfl
  exact ⟨htree, rfl, emit_reads_as_tree (fun s => s) [] ws {} 3 ⟨0⟩ e htree rfl⟩

end Compiler

end Blockwright
