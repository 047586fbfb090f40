import Blockwright.Proofs.History

/-!
# Which edits are accepted

In a forest both connections succeed just if what they ask for is there (`Edit.connectInput_ok_iff`,
`Edit.connectNext_ok_iff`), and every operation that stops with a fault leaves the workspace as it
was (`Edit.Atomic`). The connections change links in several steps, each of which could stop with a
fault in a workspace that is no forest. Main statement: `Workspace.after_accepts_iff`.
-/

namespace Blockwright

namespace Edit

open Workspace

variable {α β : Type} {ws : Workspace} {registry : Registry} {p c : BlockId} {slot : String}

theorem misfit?_eq_none_iff {kind : SlotKind} {shape : Shape} :
    misfit? kind shape = none ↔
      kind = .value ∧ shape.fitsValue = true ∨ kind = .body ∧ shape.fitsStatement = true := by
  cases kind with
  | value => simp [misfit?]
  | body => simp [misfit?]
  | literal kind => simp [misfit?]

theorem connectInput_ok_iff (hf : ws.Forest) :
    ((connectInput registry p slot c).apply ws).1 = .ok () ↔
      Connectable registry ws p (.input slot) c := by
  by_cases h : Connectable registry ws p (.input slot) c
  · simp [apply_connectInput hf h, h]
  · obtain ⟨fault, hfault⟩ := connectInput_fault hf h
    simp [hfault, h]

theorem connectNext_ok_iff (hf : ws.Forest) :
    ((connectNext registry p c).apply ws).1 = .ok () ↔ Connectable registry ws p .next c := by
  by_cases h : Connectable registry ws p .next c
  · simp [apply_connectNext hf h, h]
  · obtain ⟨fault, hfault⟩ := connectNext_fault hf h
    simp [hfault, h]

/-- If the edit stops with a fault, the workspace is as it was. -/
def Atomic (edit : Edit α) (ws : Workspace) : Prop :=
  ∀ fault ws', edit.apply ws = (.error fault, ws') → ws' = ws

namespace Atomic

theorem of_ok {edit : Edit α} {a : α} {ws' : Workspace} (h : edit.apply ws = (.ok a, ws')) :
    edit.Atomic ws := by
  intro fault ws'' hfault
  rw [h] at hfault
  cases hfault

/-- What the edit gives depends on the workspace, but it changes nothing. -/
theorem of_unchanged {edit : Edit α} {result : Except Fault α} (h : edit.apply ws = (result, ws)) :
    edit.Atomic ws := by
  intro fault ws' hfault
  rw [h] at hfault
  cases hfault
  rfl

theorem bind {edit : Edit α} {result : Except Fault α} {next : α → Edit β}
    (h : edit.apply ws = (result, ws)) (hnext : ∀ a, result = .ok a → (next a).Atomic ws) :
    (edit >>= next).Atomic ws := by
  intro fault ws' hfault
  cases result with
  | error fault' => rw [apply_bind_error h] at hfault; cases hfault; rfl
  | ok a => rw [apply_bind_ok h] at hfault; exact hnext a rfl fault ws' hfault

theorem alter (id : BlockId) (f : Block → Block) (ws : Workspace) : (alter id f).Atomic ws := by
  by_cases h : ws.Live id
  · exact of_ok (apply_alter h f)
  · exact of_unchanged (apply_alter_missing h f)

theorem connectInput (hf : ws.Forest) (registry : Registry) (p : BlockId) (slot : String)
    (c : BlockId) : (connectInput registry p slot c).Atomic ws := by
  by_cases h : Connectable registry ws p (.input slot) c
  · exact of_ok (apply_connectInput hf h)
  · obtain ⟨fault, hfault⟩ := connectInput_fault hf h
    exact of_unchanged hfault

theorem connectNext (hf : ws.Forest) (registry : Registry) (p c : BlockId) :
    (connectNext registry p c).Atomic ws := by
  by_cases h : Connectable registry ws p .next c
  · exact of_ok (apply_connectNext hf h)
  · obtain ⟨fault, hfault⟩ := connectNext_fault hf h
    exact of_unchanged hfault

theorem disconnect (hf : ws.Forest) (id : BlockId) : (disconnect id).Atomic ws := by
  by_cases h : ws.Live id
  · exact of_ok (apply_disconnect hf h)
  · exact of_unchanged (apply_bind_error (apply_detach_missing h) _)

theorem delete (hf : ws.Forest) (id : BlockId) : (delete id).Atomic ws := by
  by_cases h : ws.Live id
  · exact of_ok (apply_delete hf h)
  · exact of_unchanged (apply_delete_missing h)

theorem toggleArguments (registry : Registry) (id : BlockId) (ws : Workspace) :
    (toggleArguments registry id).Atomic ws := by
  refine bind (apply_block id ws) fun b _ => bind (apply_lift _ ws) fun d _ => ?_
  cases d.callRule? with
  | none => exact of_unchanged (apply_throw _ ws)
  | some call =>
    dsimp only
    split
    · exact of_unchanged (apply_throw _ ws)
    · exact of_ok (apply_bind_ok (apply_modify _ ws) _)

end Atomic

theorem atomic_operation (hf : ws.Forest) (registry : Registry) (op : Operation) :
    (op.edit registry).Atomic ws := by
  cases op with
  | add typeId =>
    have hadd : ((Operation.add typeId).edit registry).apply ws = (.ok (), ws.added typeId) := rfl
    exact .of_ok hadd
  | setField id name value => exact .alter id _ ws
  | setPosition id position => exact .alter id _ ws
  | connectInput p slot c => exact .connectInput hf registry p slot c
  | connectNext p c => exact .connectNext hf registry p c
  | disconnect id => exact .disconnect hf id
  | delete id => exact .delete hf id
  | toggleArguments id =>
    intro fault ws' hfault
    rw [Operation.edit, apply_bind] at hfault
    split at hfault
    · cases hfault
    · next heq => cases hfault; exact Atomic.toggleArguments registry id ws _ _ heq

end Edit

namespace Workspace

/-- After every history of operations and under any registry: a block is plugged into a slot just if
both blocks are live, their types are registered, the slot is one for values or for statements and
the block fits it, and the block is not the other one or above it; likewise for a block that is to
follow another; and an operation that stops with a fault has changed nothing. -/
theorem after_accepts_iff (made registry : Registry) (ops : List Operation) :
    let ws := after made ops
    (∀ p slot c, ((Edit.connectInput registry p slot c).apply ws).1 = .ok () ↔
      ∃ pb cb parent child target, ws.get? p = some pb ∧ ws.get? c = some cb ∧
        registry.lookup? pb.typeId = some parent ∧ registry.lookup? cb.typeId = some child ∧
        parent.schema.slot? slot = some target ∧
        (target.kind = .value ∧ child.schema.shape.fitsValue = true ∨
          target.kind = .body ∧ child.schema.shape.fitsStatement = true) ∧
        c ≠ p ∧ ¬ ws.Above c p) ∧
    (∀ p c, ((Edit.connectNext registry p c).apply ws).1 = .ok () ↔
      ∃ pb cb prev child, ws.get? p = some pb ∧ ws.get? c = some cb ∧
        registry.lookup? pb.typeId = some prev ∧ registry.lookup? cb.typeId = some child ∧
        prev.schema.hasNext = true ∧ prev.schema.shape.fitsStatement = true ∧
        child.schema.shape.fitsStatement = true ∧ c ≠ p ∧ ¬ ws.Above c p) ∧
    ∀ (op : Operation) fault ws', (op.edit registry).apply ws = (.error fault, ws') → ws' = ws := by
  intro ws
  have hf : ws.Forest := after_forest made ops
  have hapart : ∀ c p, ¬ ws.AboveEq c p ↔ c ≠ p ∧ ¬ ws.Above c p := fun c p => by
    rw [aboveEq_iff, not_or]
  refine ⟨fun p slot c => ?_, fun p c => ?_, Edit.atomic_operation hf registry⟩
  · rw [Edit.connectInput_ok_iff hf]
    constructor
    · rintro ⟨⟨tp, tc, htp, htc, dp, dc, hdp, hdc, target, htarget, hfit⟩, hcp⟩
      obtain ⟨pb, hpb, rfl⟩ := Option.map_eq_some_iff.mp htp
      obtain ⟨cb, hcb, rfl⟩ := Option.map_eq_some_iff.mp htc
      exact ⟨pb, cb, dp, dc, target, hpb, hcb, hdp, hdc, htarget, Edit.misfit?_eq_none_iff.mp hfit,
        (hapart c p).mp hcp⟩
    · rintro ⟨pb, cb, dp, dc, target, hpb, hcb, hdp, hdc, htarget, hfit, hcp⟩
      exact ⟨⟨_, _, type?_of_get? hpb, type?_of_get? hcb, dp, dc, hdp, hdc, target, htarget,
        Edit.misfit?_eq_none_iff.mpr hfit⟩, (hapart c p).mpr hcp⟩
  · rw [Edit.connectNext_ok_iff hf]
    constructor
    · rintro ⟨⟨tp, tc, htp, htc, dp, dc, hdp, hdc, hnext, hps, hcs⟩, hcp⟩
      obtain ⟨pb, hpb, rfl⟩ := Option.map_eq_some_iff.mp htp
      obtain ⟨cb, hcb, rfl⟩ := Option.map_eq_some_iff.mp htc
      exact ⟨pb, cb, dp, dc, hpb, hcb, hdp, hdc, hnext, hps, hcs, (hapart c p).mp hcp⟩
    · rintro ⟨pb, cb, dp, dc, hpb, hcb, hdp, hdc, hnext, hps, hcs, hcp⟩
      exact ⟨⟨_, _, type?_of_get? hpb, type?_of_get? hcb, dp, dc, hdp, hdc, hnext, hps, hcs⟩,
        (hapart c p).mpr hcp⟩

end Workspace

end Blockwright
