import Blockwright.Proofs.Effects
import Blockwright.Proofs.Toggling
import Blockwright.Proofs.Walk

/-!
# Edits are local to the stacks they touch

An operation is given blocks by number. The blocks that it changes besides them (the old neighbours of
a block that moves, the chain that gives way to it, all that hangs on a deleted block) are in the stacks
of the given ones (`Workspace.perform_keeps`). The code of a stack is made of the blocks of that stack
(`Compiler.code_of_keeps`). So an operation leaves the code of every other stack as it was
(`Workspace.after_edit_local`).
-/

namespace Blockwright

/-- The blocks that an operation is given. -/
def Operation.arguments : Operation → List BlockId
  | .add _ => []
  | .setField id _ _ => [id]
  | .setPosition id _ => [id]
  | .connectInput p _ c => [p, c]
  | .connectNext p c => [p, c]
  | .disconnect id => [id]
  | .delete id => [id]
  | .toggleArguments id => [id]

namespace Workspace

variable {ws ws' : Workspace} {registry : Registry} {root id p c j a : BlockId} {link : Link}

/-! ### Blocks outside a stack -/

/-- The blocks at and below `root` are as they were. -/
def Keeps (root : BlockId) (ws ws' : Workspace) : Prop :=
  ∀ j, ws.AboveEq root j → ws'.get? j = ws.get? j

theorem keeps_refl (root : BlockId) (ws : Workspace) : Keeps root ws ws := fun _ _ => rfl

/-- What is above a block of a stack is in the stack. -/
theorem aboveEq_root (hroot : ws.parent? root = none) (hj : ws.AboveEq root j)
    (ha : ws.AboveEq a j) : ws.AboveEq root a := by
  rcases AboveEq.total hj ha with h | h
  · exact h
  · rcases aboveEq_iff.mp h with rfl | h
    · exact .refl
    · exact absurd h (not_above_of_parent?_none hroot)

theorem ne_of_not_aboveEq (hj : ws.AboveEq root j) (hid : ¬ ws.AboveEq root id) : j ≠ id := by
  rintro rfl
  exact hid hj

theorem keeps_update (hid : ¬ ws.AboveEq root id) (f : Block → Block) :
    Keeps root ws (ws.update id f) := by
  intro j hj
  rw [get?_update, if_neg (ne_of_not_aboveEq hj hid).symm]

theorem keeps_release (hid : ¬ ws.AboveEq root id) : Keeps root ws (ws.release id) := by
  intro j hj
  rw [get?_release_of_ne (ne_of_not_aboveEq hj hid)]
  refine cutFrom_of_not_parent fun l hl => ?_
  exact hid (hj.tail ⟨l, hl⟩)

theorem keeps_added (hlive : ws.Live root) (typeId : String) :
    Keeps root ws (ws.added typeId) := by
  intro j hj
  have hj : ws.Live j := by
    rcases aboveEq_iff.mp hj with rfl | hj
    · exact hlive
    · exact hj.live
  rw [get?_added, if_neg]
  rintro rfl
  exact not_live_iff.mpr (get?_capacity ws) hj

section

variable (hf : ws.Forest) (hroot : ws.parent? root = none)
include hf hroot

theorem keeps_connected (h : Connectable registry ws p link c) (hp : ¬ ws.AboveEq root p)
    (hc : ¬ ws.AboveEq root c) : Keeps root ws (ws.connected registry p link c) := by
  intro j hj
  obtain ⟨front, tail, hchain, hspliced⟩ := h.spliced hf
  refine hspliced.unchanged j (ne_of_not_aboveEq hj hp) (ne_of_not_aboveEq hj hc)
    (fun l hl => ?_) (fun hold => ?_) ?_
  · exact hc (hj.tail ⟨l, hl⟩)
  · -- what stood at the link is in the stack of `p`
    have hbelow := ((hf.release c).above_target hold).to_reflTransGen
    exact hp (aboveEq_root hroot hj (aboveEq_of_release hbelow))
  · -- the end of the chain is in the stack of `c`
    rintro rfl
    have hbelow := hchain.aboveEq (hf.release c) j (by simp)
    exact hc (aboveEq_root hroot hj (aboveEq_of_release hbelow))

theorem keeps_deleted (hid : ¬ ws.AboveEq root id) : Keeps root ws (ws.deleted id) := by
  classical
  intro j hj
  have hbelow : ¬ (ws.release id).AboveEq id j := fun h =>
    hid (aboveEq_root hroot hj (aboveEq_of_release h))
  rw [hf.get?_deleted, if_neg hbelow]
  exact keeps_release hid j hj

end

/-! ### Operations -/

theorem keeps_alter (hid : ¬ ws.AboveEq root id) (f : Block → Block) :
    Keeps root ws ((Edit.alter id f).apply ws).2 := by
  by_cases h : ws.Live id
  · rw [Edit.apply_alter h]
    exact keeps_update hid f
  · rw [Edit.apply_alter_missing h]
    exact keeps_refl root ws

theorem keeps_toggleArguments (hid : ¬ ws.AboveEq root id) :
    Keeps root ws ((Edit.toggleArguments registry id).apply ws).2 := by
  cases hb : ws.get? id with
  | none =>
    rw [Edit.toggleArguments, Edit.apply_bind_error (by rw [Edit.apply_block, Workspace.get, hb])]
    exact keeps_refl root ws
  | some b =>
    cases hd : registry.lookup? b.typeId with
    | none =>
      rw [Edit.toggleArguments, Edit.apply_bind_ok (Edit.apply_block_ok hb),
        Edit.apply_bind_error (by rw [Edit.apply_lift, Registry.lookup_of_lookup?_none hd])]
      exact keeps_refl root ws
    | some d =>
      cases hrule : d.rule with
      | call call =>
        rw [Edit.apply_toggleArguments hb hd hrule]
        split
        · exact keeps_refl root ws
        · exact keeps_update hid _
      | _ =>
        have hcall : d.callRule? = none := by rw [Definition.callRule?, hrule]
        rw [Edit.toggleArguments, Edit.apply_bind_ok (Edit.apply_block_ok hb),
          Edit.apply_bind_ok (by rw [Edit.apply_lift, Registry.lookup_of_lookup? hd]), hcall]
        exact keeps_refl root ws

/-- An operation changes no stack but those of the blocks that it is given. -/
theorem perform_keeps (hf : ws.Forest) (hroot : root ∈ ws.top) (registry : Registry) (op : Operation)
    (hargs : ∀ a ∈ op.arguments, ¬ ws.AboveEq root a) : Keeps root ws (ws.perform registry op) := by
  obtain ⟨hlive, hparent⟩ := (hf.mem_top root).mp hroot
  cases op with
  | add typeId => exact keeps_added hlive typeId
  | setField id name value => exact keeps_alter (hargs id (by simp [Operation.arguments])) _
  | setPosition id position => exact keeps_alter (hargs id (by simp [Operation.arguments])) _
  | connectInput p slot c =>
    have hp := hargs p (by simp [Operation.arguments])
    have hc := hargs c (by simp [Operation.arguments])
    show Keeps root ws ((Edit.connectInput registry p slot c).apply ws).2
    by_cases h : Connectable registry ws p (.input slot) c
    · rw [Edit.apply_connectInput hf h]
      exact keeps_connected hf hparent h hp hc
    · obtain ⟨fault, hfault⟩ := Edit.connectInput_fault hf h
      rw [hfault]
      exact keeps_refl root ws
  | connectNext p c =>
    have hp := hargs p (by simp [Operation.arguments])
    have hc := hargs c (by simp [Operation.arguments])
    show Keeps root ws ((Edit.connectNext registry p c).apply ws).2
    by_cases h : Connectable registry ws p .next c
    · rw [Edit.apply_connectNext hf h]
      exact keeps_connected hf hparent h hp hc
    · obtain ⟨fault, hfault⟩ := Edit.connectNext_fault hf h
      rw [hfault]
      exact keeps_refl root ws
  | disconnect id =>
    show Keeps root ws ((Edit.disconnect id).apply ws).2
    by_cases h : ws.Live id
    · rw [apply_disconnect hf h]
      exact keeps_release (hargs id (by simp [Operation.arguments]))
    · rw [Edit.disconnect, Edit.apply_bind_error (Edit.apply_detach_missing h)]
      exact keeps_refl root ws
  | delete id =>
    show Keeps root ws ((Edit.delete id).apply ws).2
    by_cases h : ws.Live id
    · rw [Edit.apply_delete hf h]
      exact keeps_deleted hf hparent (hargs id (by simp [Operation.arguments]))
    · rw [Edit.apply_delete_missing h]
      exact keeps_refl root ws
  | toggleArguments id =>
    have h : Keeps root ws ((Edit.toggleArguments registry id).apply ws).2 :=
      keeps_toggleArguments (hargs id (by simp [Operation.arguments]))
    rw [perform, Operation.edit, Edit.apply_bind]
    split <;> simp_all

theorem Keeps.mem_top (h : Keeps root ws ws') (hf : ws.Forest) (hf' : ws'.Forest)
    (hroot : root ∈ ws.top) : root ∈ ws'.top := by
  obtain ⟨hlive, hparent⟩ := (hf.mem_top root).mp hroot
  have hget := h root .refl
  rw [hf'.mem_top, Live, parent?, hget]
  exact ⟨hlive, hparent⟩

end Workspace

/-! ### The code of a stack -/

namespace Compiler

open Workspace

variable {registry : Registry} {ws ws' : Workspace} {options : Options} {root : BlockId}

/-- The code of a block and that of a chain are made of the blocks at and below it. -/
theorem code_of_keeps (hf : ws.Forest) (hf' : ws'.Forest) (hlive : ws.Live root)
    (h : Keeps root ws ws') :
    emit ⟨registry, ws', options⟩ root = emit ⟨registry, ws, options⟩ root ∧
    chain ⟨registry, ws', options⟩ root = chain ⟨registry, ws, options⟩ root := by
  -- a block that hangs on `root` is less high
  induction hheight : ws.height root using Nat.strong_induction_on generalizing root with
  | _ n ih =>
    obtain ⟨b, hb⟩ := hlive
    have hb' : ws'.get? root = some b := (h root .refl).trans hb
    have hchild : ∀ link c, b.target? link = some c →
        emit ⟨registry, ws', options⟩ c = emit ⟨registry, ws, options⟩ c ∧
        chain ⟨registry, ws', options⟩ c = chain ⟨registry, ws, options⟩ c := by
      intro link c hc
      have ht : ws.target? root link = some c := (target?_of_get? hb link).trans hc
      have habove := hf.above_target ht
      refine ih _ (hheight ▸ hf.height_lt_of_above habove) (hf.live_target ht) (fun j hj => ?_) rfl
      exact h j (habove.to_reflTransGen.trans hj)
    have hemit : emit ⟨registry, ws', options⟩ root = emit ⟨registry, ws, options⟩ root := by
      rw [emit_eq hf' hb', emit_eq hf hb]
      congr 1
      funext d
      refine Site.rule_congr (fun slot c hc => ?_) d.rule
      exact hchild (.input slot) c hc
    refine ⟨hemit, ?_⟩
    rw [chain_eq hf' hb', chain_eq hf hb, hemit]
    congr 1
    funext emission
    cases hnext : b.next with
    | none => rfl
    | some next =>
      dsimp only
      rw [(hchild .next next hnext).2]

end Compiler

namespace Workspace

/-- After every history, an operation (with any arguments, also one that stops with a fault) leaves
every stack without a block that it is given as it was: its root is still one, the blocks of the
stack are the same, and so is its code. -/
theorem after_edit_local (made registry : Registry) (options : Options) (ops : List Operation)
    (op : Operation) (root : BlockId) (hroot : root ∈ (after made ops).topBlocks)
    (hargs : ∀ a ∈ op.arguments, ¬ (after made ops).Reaches root a) :
    let ws := after made ops
    let ws' := ws.perform registry op
    root ∈ ws'.topBlocks ∧
    (∀ j, ws.Reaches root j → ws'.get? j = ws.get? j) ∧
    Compiler.chain ⟨registry, ws', options⟩ root = Compiler.chain ⟨registry, ws, options⟩ root := by
  intro ws ws'
  have hf : ws.Forest := after_forest made ops
  have hf' : ws'.Forest := hf.move (perform_move hf op)
  rw [mem_topBlocks] at hroot
  have hkeeps : Keeps root ws ws' :=
    perform_keeps hf hroot registry op fun a ha h => hargs a ha (hf.reaches_iff.mpr h)
  refine ⟨?_, fun j hj => ?_, ?_⟩
  · rw [mem_topBlocks]
    exact hkeeps.mem_top hf hf' hroot
  · exact hkeeps j (hf.reaches_iff.mp hj)
  · exact (Compiler.code_of_keeps hf hf' ((hf.mem_top root).mp hroot).1 hkeeps).2

/-- Three chains of two steps. -/
def threeChains : List Operation :=
  [ .add "step", .add "step", .add "step", .add "step", .add "step", .add "step",
    .connectNext ⟨0⟩ ⟨1⟩, .connectNext ⟨2⟩ ⟨3⟩, .connectNext ⟨4⟩ ⟨5⟩ ]

/-- The second step moves from its chain into the next one, and the third chain stays as it is. -/
theorem after_edit_local_between :
    let ws := after stepRegistry threeChains
    let ws' := ws.perform stepRegistry (.connectNext ⟨2⟩ ⟨1⟩)
    (⟨4⟩ ∈ ws.topBlocks ∧ ∀ a ∈ [⟨2⟩, ⟨1⟩], ¬ ws.Reaches ⟨4⟩ a) ∧
    ⟨4⟩ ∈ ws'.topBlocks ∧
    (∀ j, ws.Reaches ⟨4⟩ j → ws'.get? j = ws.get? j) ∧
    Compiler.chain ⟨stepRegistry, ws', {}⟩ ⟨4⟩ = Compiler.chain ⟨stepRegistry, ws, {}⟩ ⟨4⟩ := by
  intro ws ws'
  have hf : ws.Forest := after_forest stepRegistry threeChains
  have htop : ⟨4⟩ ∈ ws.topBlocks := by
    rw [mem_topBlocks]
    decide +kernel
  have hapart : ∀ j : BlockId, j ≠ ⟨4⟩ → ws.parent? j = none → ¬ ws.AboveEq ⟨4⟩ j := by
    intro j hne hparent h
    rcases aboveEq_iff.mp h with rfl | h
    · exact hne rfl
    · exact not_above_of_parent?_none hparent h
  have hargs : ∀ a ∈ [⟨2⟩, ⟨1⟩], ¬ ws.Reaches ⟨4⟩ a := by
    intro a ha
    rw [hf.reaches_iff]
    rcases List.mem_pair.mp ha with rfl | rfl
    · exact hapart ⟨2⟩ (by decide) (by decide +kernel)
    · have hparent : ws.parent? ⟨1⟩ = some (⟨0⟩, .next) := by decide +kernel
      intro h
      rcases aboveEq_iff.mp h with h | h
      · exact absurd h (by decide)
      · exact hapart ⟨0⟩ (by decide) (by decide +kernel) ((above_iff_of_parent? hparent).mp h)
  exact ⟨⟨htop, hargs⟩, after_edit_local _ _ _ _ _ _ htop hargs⟩

end Workspace

end Blockwright
