import Blockwright.Proofs.Forest

/-!
# What edits do to a forest

One equation for each edit: its outcome and the workspace after it, in terms of `release` and
`plug`. In a forest the checks of a connection come before its first change, and no later step
fails, so an edit that stops with a fault has changed nothing (`apply_connectInput`,
`apply_connectNext`).
-/

namespace Blockwright

namespace Dict

variable {α : Type}

theorem ne_of_lookup_none {key : String} {entries : List (String × α)}
    (h : lookup key entries = none) : ∀ e ∈ entries, e.1 ≠ key := by
  induction entries with
  | nil => simp
  | cons a rest ih =>
    rw [lookup] at h
    split at h
    · simp at h
    · next hne =>
      intro e he
      rcases List.mem_cons.mp he with rfl | he
      · exact hne
      · exact ih h e he

/-- Removing a key that is not there. -/
theorem erase_of_get?_none (d : Dict α) {key : String} (h : d.get? key = none) :
    d.erase key = d := by
  have : d.entries.filter (fun e => e.1 != key) = d.entries := by
    rw [List.filter_eq_self]
    intro e he
    simpa using ne_of_lookup_none h e he
  simp only [erase, this]

end Dict

theorem Block.withoutLink_of_target?_none {b : Block} {link : Link} (h : b.target? link = none) :
    b.withoutLink link = b := by
  cases link with
  | input slot => rw [withoutLink, Dict.erase_of_get?_none _ h]
  | next => cases b; cases h; rfl

namespace Workspace

variable {ws ws' : Workspace}

theorem ext_get? (hcap : ws.capacity = ws'.capacity) (hget : ∀ id, ws.get? id = ws'.get? id)
    (htop : ws.top = ws'.top) : ws = ws' := by
  obtain ⟨blocks, top⟩ := ws
  obtain ⟨blocks', top'⟩ := ws'
  cases htop
  have : blocks = blocks' := by
    refine Array.ext hcap fun i hi hi' => ?_
    have h := hget ⟨i⟩
    simpa [get?, Array.getElem?_eq_getElem hi, Array.getElem?_eq_getElem hi'] using h
  rw [this]

theorem update_of_fixed {id : BlockId} {f : Block → Block}
    (h : ∀ b, ws.get? id = some b → f b = b) : ws.update id f = ws := by
  refine ext_get? (capacity_update ws id f) (fun j => ?_) (top_update ws id f)
  rw [get?_update]
  split
  · next hj =>
    subst hj
    cases hb : ws.get? id with
    | none => rfl
    | some b => rw [Option.map_some, h b hb]
  · rfl

theorem update_comm {a b : BlockId} (hab : a ≠ b) (f g : Block → Block) :
    (ws.update a f).update b g = (ws.update b g).update a f := by
  refine ext_get? (by simp) (fun j => ?_) (by simp)
  simp only [get?_update]
  by_cases ha : a = j
  · have : b ≠ j := fun hb => hab (ha.trans hb.symm)
    simp [ha, this]
  · simp [ha]

end Workspace

namespace Edit

open Workspace

variable {α β : Type} {ws : Workspace} {id p c : BlockId} {link : Link}

/-! ### The steps of an edit -/

@[simp] theorem apply_pure (a : α) (ws : Workspace) : (pure a : Edit α).apply ws = (.ok a, ws) := rfl

@[simp] theorem apply_throw (fault : Fault) (ws : Workspace) :
    (throw fault : Edit α).apply ws = (.error fault, ws) := rfl

@[simp] theorem apply_get (ws : Workspace) : (get : Edit Workspace).apply ws = (.ok ws, ws) := rfl

@[simp] theorem apply_set (ws ws' : Workspace) :
    (set ws' : Edit PUnit).apply ws = (.ok ⟨⟩, ws') := rfl

@[simp] theorem apply_modify (f : Workspace → Workspace) (ws : Workspace) :
    (modify f : Edit PUnit).apply ws = (.ok ⟨⟩, f ws) := rfl

theorem apply_bind (edit : Edit α) (next : α → Edit β) (ws : Workspace) :
    (edit >>= next).apply ws =
      match edit.apply ws with
      | (.ok a, ws') => (next a).apply ws'
      | (.error fault, ws') => (.error fault, ws') := by
  simp only [apply, ExceptT.run_bind, StateT.run_bind]
  rcases edit.run.run ws with ⟨_ | _, _⟩ <;> rfl

theorem apply_bind_ok {edit : Edit α} {a : α} {ws' : Workspace} (h : edit.apply ws = (.ok a, ws'))
    (next : α → Edit β) : (edit >>= next).apply ws = (next a).apply ws' := by rw [apply_bind, h]

theorem apply_bind_error {edit : Edit α} {fault : Fault} {ws' : Workspace}
    (h : edit.apply ws = (.error fault, ws')) (next : α → Edit β) :
    (edit >>= next).apply ws = (.error fault, ws') := by rw [apply_bind, h]

@[simp] theorem apply_lift (result : Except Fault α) (ws : Workspace) :
    (lift result).apply ws = (result, ws) := by cases result <;> rfl

@[simp] theorem apply_block (id : BlockId) (ws : Workspace) :
    (block id).apply ws = (ws.get id, ws) := by simp [block, apply_bind]

theorem apply_block_ok {b : Block} (hb : ws.get? id = some b) :
    (block id).apply ws = (.ok b, ws) := by rw [apply_block, get_of_get? hb]

@[simp] theorem apply_pushTop (id : BlockId) (ws : Workspace) :
    (pushTop id).apply ws = (.ok (), { ws with top := ws.top ++ [id] }) := rfl

@[simp] theorem apply_dropTop (id : BlockId) (ws : Workspace) :
    (dropTop id).apply ws = (.ok (), { ws with top := ws.top.filter (· ≠ id) }) := rfl

theorem apply_alter (h : ws.Live id) (f : Block → Block) :
    (alter id f).apply ws = (.ok (), ws.update id f) := by
  obtain ⟨b, hb⟩ := h
  simp [alter, apply_bind, get_of_get? hb, update, hb]

theorem apply_alter_missing (h : ¬ ws.Live id) (f : Block → Block) :
    (alter id f).apply ws = (.error (.missing id), ws) := by
  simp [alter, apply_bind, Workspace.get, not_live_iff.mp h]

/-! ### Taking off and hanging up -/

theorem apply_detach_missing (h : ¬ ws.Live id) :
    (detach id).apply ws = (.error (.missing id), ws) := by
  simp [detach, apply_bind, Workspace.get, not_live_iff.mp h]

theorem apply_detach (hf : ws.Forest) (h : ws.Live id) :
    (detach id).apply ws = (.ok (), ws.release id) := by
  obtain ⟨b, hb⟩ := h
  refine (apply_bind_ok (apply_block_ok hb) _).trans ?_
  cases hpar : b.parent with
  | none => rw [release_of_parent?_none ((parent?_of_get? hb).trans hpar)]; rfl
  | some at? =>
    obtain ⟨p, link⟩ := at?
    have hp : ws.parent? id = some (p, link) := (parent?_of_get? hb).trans hpar
    have hlive : (ws.update id fun b => b.withParent none).Live p :=
      (live_update ..).mpr (hf.live_parent hp)
    refine (apply_bind_ok (apply_alter ⟨b, hb⟩ fun b => b.withParent none) _).trans ?_
    refine (apply_bind_ok (apply_alter hlive fun b => b.withoutLink link) _).trans ?_
    simp [release, hp]

theorem apply_attach (hp : ws.Live p) (hc : ws.Live c) :
    (attach p link c).apply ws = (.ok (), ws.plug p link c) := by
  obtain ⟨b, hb⟩ := hc
  have hlive : (ws.update p fun b => b.withLink link c).Live c := (live_update ..).mpr ⟨b, hb⟩
  refine (apply_bind_ok (apply_block_ok hb) _).trans ?_
  refine (apply_bind_ok (apply_alter hp fun b => b.withLink link c) _).trans ?_
  refine (apply_bind_ok (apply_alter hlive fun b => b.withParent (some (p, link))) _).trans ?_
  simp [plug]

/-- The block at a link gives way. -/
theorem apply_displace (hf : ws.Forest) (hp : ws.Live p) :
    (displace p link).apply ws =
      (.ok (ws.target? p link), ((ws.target? p link).map ws.release).getD ws) := by
  obtain ⟨b, hb⟩ := hp
  refine (apply_bind_ok (apply_block_ok hb) _).trans ?_
  refine (apply_bind_ok (apply_alter ⟨b, hb⟩ fun b => b.withoutLink link) _).trans ?_
  rw [target?_of_get? hb]
  cases ht : b.target? link with
  | none =>
    have : ws.update p (fun b => b.withoutLink link) = ws := update_of_fixed fun b' hb' => by
      rw [hb] at hb'; cases hb'
      exact Block.withoutLink_of_target?_none ht
    simp [this]
  | some old =>
    have ht' : ws.target? p link = some old := (target?_of_get? hb link).trans ht
    have hpar : ws.parent? old = some (p, link) := (hf.linked p link old).mp ht'
    have hne : p ≠ old := by rintro rfl; exact hf.acyclic _ (hf.above_target ht')
    have hlive : (ws.update p fun b => b.withoutLink link).Live old :=
      (live_update ..).mpr (hf.live_target ht')
    have halter := apply_alter hlive fun b => b.withParent none
    refine (apply_bind_ok halter _).trans ?_
    refine (apply_bind_ok (apply_pushTop old _) _).trans ?_
    simp [release, hpar, update_comm hne]

/-! ### Walks along the links -/

/-- The walk up from a block meets the blocks above it. -/
theorem meetsUpward_eq (hf : ws.Forest) (c : BlockId) {fuel : Nat} (hid : ws.Live id)
    (hfuel : ws.depth id < fuel) :
    ∃ met, meetsUpward ws c fuel id = .ok met ∧ (met = true ↔ ws.AboveEq c id) := by
  induction fuel generalizing id with
  | zero => omega
  | succ fuel ih =>
    rw [meetsUpward]
    split
    · next h => exact ⟨true, rfl, by rw [h]; simp [AboveEq, Relation.ReflTransGen.refl]⟩
    · next hne =>
      obtain ⟨b, hb⟩ := hid
      have habove : ws.AboveEq c id ↔ ws.Above c id := by simp [aboveEq_iff, Ne.symm hne]
      rw [get_of_get? hb, habove]
      cases hpar : b.parent with
      | none =>
        refine ⟨false, by simp [bind, Except.bind, hpar], ?_⟩
        simp [not_above_of_parent?_none ((parent?_of_get? hb).trans hpar)]
      | some at? =>
        obtain ⟨p, link⟩ := at?
        have hp : ws.parent? id = some (p, link) := (parent?_of_get? hb).trans hpar
        have hlt := hf.depth_lt_of_above (ParentOf.above ⟨link, hp⟩)
        obtain ⟨met, hmet, hiff⟩ := ih (hf.live_parent hp) (by omega)
        exact ⟨met, by simp [bind, Except.bind, hpar, hmet],
          hiff.trans (above_iff_of_parent? hp).symm⟩

/-- The walk down a chain ends at a block that nothing follows. -/
theorem chainTail_eq (hf : ws.Forest) {fuel : Nat} (hid : ws.Live id)
    (hfuel : ws.height id < fuel) :
    ∃ tail, chainTail ws fuel id = .ok tail ∧ ws.AboveEq id tail ∧ ws.Live tail ∧
      ws.target? tail .next = none := by
  induction fuel generalizing id with
  | zero => omega
  | succ fuel ih =>
    obtain ⟨b, hb⟩ := hid
    rw [chainTail, get_of_get? hb]
    cases hnext : b.next with
    | none =>
      exact ⟨id, by simp [bind, Except.bind, hnext], .refl, ⟨b, hb⟩,
        (target?_of_get? hb .next).trans hnext⟩
    | some next =>
      have ht : ws.target? id .next = some next := (target?_of_get? hb .next).trans hnext
      have hlt := hf.height_lt_of_above (hf.above_target ht)
      obtain ⟨tail, htail, habove, hrest⟩ := ih (hf.live_target ht) (by omega)
      exact ⟨tail, by simp [bind, Except.bind, hnext, htail],
        Relation.ReflTransGen.head ⟨.next, (hf.linked ..).mp ht⟩ habove, hrest⟩

theorem apply_ensureAcyclic (hf : ws.Forest) (hp : ws.Live p) (h : ¬ ws.AboveEq c p) :
    (ensureAcyclic p c).apply ws = (.ok (), ws) := by
  obtain ⟨met, hmet, hiff⟩ := meetsUpward_eq hf c hp (Nat.lt_succ_of_lt (hf.depth_lt hp))
  have : met = false := by simpa using mt hiff.mp h
  simp [ensureAcyclic, apply_bind, hmet, this]

theorem apply_ensureAcyclic_error (hf : ws.Forest) (hp : ws.Live p) (h : ws.AboveEq c p) :
    (ensureAcyclic p c).apply ws = (.error (.wouldCycle p c), ws) := by
  obtain ⟨met, hmet, hiff⟩ := meetsUpward_eq hf c hp (Nat.lt_succ_of_lt (hf.depth_lt hp))
  simp [ensureAcyclic, apply_bind, hmet, hiff.mpr h]

end Edit

end Blockwright
