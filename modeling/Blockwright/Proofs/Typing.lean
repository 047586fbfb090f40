import Blockwright.Proofs.History

/-!
# Typed workspaces

Every link of a workspace joins two registered types that fit there. The checks of the two
connections see to it for the links that they make themselves; a chain that gave way stood where
statements stand, so it also fits behind the chain that took its place (`Typed.rejoined`).
-/

namespace Blockwright

/-- A type that can stand in a chain. -/
def Registry.Statement (registry : Registry) (typeId : String) : Prop :=
  ∃ d, registry.lookup? typeId = some d ∧ d.schema.shape.fitsStatement = true

namespace Workspace

variable {ws ws' : Workspace} {registry : Registry} {p c : BlockId} {link : Link}

/-- Every link joins types that fit. -/
def Typed (registry : Registry) (ws : Workspace) : Prop :=
  ∀ p link c, ws.target? p link = some c → FitsAt registry ws p link c

theorem FitsAt.of_types (h : FitsAt registry ws p link c) (hp : ws'.type? p = ws.type? p)
    (hc : ws'.type? c = ws.type? c) : FitsAt registry ws' p link c := by
  rwa [FitsAt, hp, hc]

/-- What hangs where chains are taken can stand in a chain. -/
theorem FitsAt.statement (h : FitsAt registry ws p link c)
    (hchain : takesChain registry ws p link = true) :
    ∃ t, ws.type? c = some t ∧ registry.Statement t := by
  obtain ⟨tp, tc, htp, htc, dp, dc, hdp, hdc, hlink⟩ := h
  cases link with
  | next => exact ⟨tc, htc, dc, hdc, hlink.2.2⟩
  | input slot =>
    obtain ⟨target, htarget, hfit⟩ := hlink
    have hbody : target.kind = .body := by simpa [takesChain, htp, hdp, htarget] using hchain
    rw [hbody] at hfit
    exact ⟨tc, htc, dc, hdc, by simpa [Edit.misfit?] using hfit⟩

namespace Typed

theorem empty : Typed registry empty := by
  intro p link c h
  obtain ⟨b, hb⟩ := live_of_target? h
  simp [get?, Workspace.empty] at hb

theorem of_links (h : Typed registry ws)
    (hlinks : ∀ p link c, ws'.target? p link = some c → ws.target? p link = some c)
    (htypes : ∀ id, ws'.Live id → ws'.type? id = ws.type? id) (hf : ws'.Forest) :
    Typed registry ws' := fun p link c ht =>
  (h p link c (hlinks p link c ht)).of_types (htypes p (live_of_target? ht))
    (htypes c (hf.live_target ht))

theorem release (h : Typed registry ws) (id : BlockId) : Typed registry (ws.release id) := by
  intro p link c ht
  refine (h p link c ?_).of_types (type?_release ..) (type?_release ..)
  cases hpar : ws.parent? id with
  | none => rwa [release_of_parent?_none hpar] at ht
  | some at? =>
    rw [target?_release hpar] at ht
    split at ht
    · simp at ht
    · exact ht

theorem plug (h : Typed registry ws) (hfit : FitsAt registry ws p link c) :
    Typed registry (ws.plug p link c) := by
  intro q k d ht
  rw [target?_plug link hfit.live_parent] at ht
  split at ht
  · next heq => cases heq; cases ht; exact hfit.of_types (type?_plug ..) (type?_plug ..)
  · exact (h q k d ht).of_types (type?_plug ..) (type?_plug ..)

theorem type?_swapped (ws : Workspace) (p : BlockId) (link : Link) (c id : BlockId) :
    (ws.swapped p link c).type? id = ws.type? id := by
  rw [swapped, type?_plug]
  cases (ws.release c).target? p link <;> simp

theorem swapped (h : Typed registry ws) (hfit : FitsAt registry ws p link c) :
    Typed registry (ws.swapped p link c) := by
  rw [Workspace.swapped]
  cases ht : (ws.release c).target? p link with
  | none => exact (h.release c).plug (hfit.of_types (by simp) (by simp))
  | some old => exact ((h.release c).release old).plug (hfit.of_types (by simp) (by simp))

/-- The chain that gave way fits behind the tail of the new one. -/
theorem rejoined (h : Typed registry ws) {old : BlockId} {t : String} (hold : ws.type? old = some t)
    (hstatement : registry.Statement t) : Typed registry (ws.rejoined registry c old) := by
  rw [Workspace.rejoined]
  split
  · split
    · next haccepts =>
      obtain ⟨tt, dt, htt, hdt, hnext, hts⟩ := Edit.acceptsNext_iff.mp haccepts
      obtain ⟨d, hd, hs⟩ := hstatement
      exact h.plug ⟨tt, t, htt, hold, dt, d, hdt, hd, hnext, hts, hs⟩
    · exact h
  · exact h

theorem connected (h : Typed registry ws) (hc : Connectable registry ws p link c) :
    Typed registry (ws.connected registry p link c) := by
  have hsw := h.swapped hc.fits
  rw [Workspace.connected]
  split
  · next old hold =>
    split
    · next hchain =>
      have hchain' : takesChain registry (ws.release c) p link = true := by
        cases link with
        | next => rfl
        | input slot => simpa [takesChain] using hchain
      obtain ⟨t, ht, hstatement⟩ := (h.release c p link old hold).statement hchain'
      exact hsw.rejoined ((type?_swapped ..).trans ((type?_release ws c old).symm.trans ht)) hstatement
    · exact hsw
  · exact hsw

theorem deleted (h : Typed registry ws) (hf : ws.Forest) (id : BlockId) :
    Typed registry (ws.deleted id) := by
  classical
  have hget : ∀ j b, (ws.deleted id).get? j = some b → (ws.release id).get? j = some b := by
    intro j b hb
    rw [hf.get?_deleted] at hb
    split at hb
    · simp at hb
    · exact hb
  refine (h.release id).of_links (fun p link c ht => ?_) (fun j ⟨b, hb⟩ => ?_) (hf.deleted id)
  · obtain ⟨b, hb, hc⟩ := Option.bind_eq_some_iff.mp ht
    exact (target?_of_get? (hget p b hb) link).trans hc
  · rw [type?_of_get? hb, type?_of_get? (hget j b hb)]

theorem added (h : Typed registry ws) (hf : ws.Forest) (typeId : String) :
    Typed registry (ws.added typeId) := by
  have htype : ∀ j, ws.Live j → (ws.added typeId).type? j = ws.type? j := by
    intro j hj
    have hne : j ≠ ⟨ws.capacity⟩ := by
      rintro rfl; exact not_live_iff.mpr (get?_capacity ws) hj
    rw [type?, get?_added, if_neg hne, type?]
  intro p link c ht
  rw [target?_added] at ht
  exact (h p link c ht).of_types (htype p (live_of_target? ht)) (htype c (hf.live_target ht))

theorem update (h : Typed registry ws) {f : Block → Block} (hf : Payload f) (id : BlockId) :
    Typed registry (ws.update id f) := by
  have htarget : ∀ p link, (ws.update id f).target? p link = ws.target? p link := by
    intro p link
    rw [target?_update]
    split
    · simp [hf.target?, target?]
    · rfl
  intro p link c ht
  rw [htarget] at ht
  exact (h p link c ht).of_types (type?_update _ _ _ _ hf.typeId) (type?_update _ _ _ _ hf.typeId)

theorem move (h : Typed registry ws) (hf : ws.Forest) (hm : Move registry ws ws') :
    Typed registry ws' := by
  cases hm with
  | stay => exact h
  | add typeId => exact h.added hf typeId
  | change id f hp => exact h.update hp id
  | release id => exact h.release id
  | connect p link c hc => exact h.connected hc
  | delete id => exact h.deleted hf id

end Typed

/-- After every history, every link joins types that fit. -/
theorem after_typed (registry : Registry) (ops : List Operation) :
    Typed registry (after registry ops) :=
  (after_induction Typed.empty (fun _ _ hf h hm => h.move hf hm) ops).2

end Workspace

end Blockwright
