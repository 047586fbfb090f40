import Blockwright.Proofs.Edits

/-!
# Connecting blocks

Both ways to connect a block ask for the same things (`Connectable`) and do the same: the block is
taken off, what stands at its new place gives way, and a chain that gave way to a chain is hung
behind it if something can follow there (`connected`). If they do not get what they ask for, they
change nothing.
-/

namespace Blockwright

/-- Whether a block of one type can hang at a link of a block of another type. -/
def Registry.Fits (registry : Registry) (parentType : String) (link : Link) (childType : String) :
    Prop :=
  ∃ parent child, registry.lookup? parentType = some parent ∧
    registry.lookup? childType = some child ∧
    match link with
    | .input slot =>
      ∃ target, parent.schema.slot? slot = some target ∧
        Edit.misfit? target.kind child.schema.shape = none
    | .next =>
      parent.schema.hasNext = true ∧ parent.schema.shape.fitsStatement = true ∧
        child.schema.shape.fitsStatement = true

theorem Registry.lookup_of_lookup? {r : Registry} {t : String} {d : Definition}
    (h : r.lookup? t = some d) : r.lookup t = .ok d := by simp [lookup, h]

theorem Registry.lookup_of_lookup?_none {r : Registry} {t : String} (h : r.lookup? t = none) :
    r.lookup t = .error (.unknownType t) := by simp [lookup, h]

namespace Workspace

variable {ws : Workspace}

/-- The types of two live blocks let the second hang at a link of the first. -/
def FitsAt (registry : Registry) (ws : Workspace) (p : BlockId) (link : Link) (c : BlockId) : Prop :=
  ∃ tp tc, ws.type? p = some tp ∧ ws.type? c = some tc ∧ registry.Fits tp link tc

/-- The block `c` fits the link of the block `p`, and is not `p` or above it. -/
structure Connectable (registry : Registry) (ws : Workspace) (p : BlockId) (link : Link)
    (c : BlockId) : Prop where
  fits : FitsAt registry ws p link c
  apart : ¬ ws.AboveEq c p

/-- Whether a link of a block takes a chain of statements. -/
def takesChain (registry : Registry) (ws : Workspace) (p : BlockId) : Link → Bool
  | .next => true
  | .input slot =>
    (((ws.type? p).bind registry.lookup?).bind fun d => d.schema.slot? slot).map Slot.kind =
      some .body

/-- `old` is hung behind the chain of `c`, if something can follow there. -/
def rejoined (registry : Registry) (ws : Workspace) (c old : BlockId) : Workspace :=
  match Edit.chainTail ws (ws.capacity + 1) c with
  | .ok tail => if Edit.acceptsNext registry ws tail then ws.plug tail .next old else ws
  | .error _ => ws

/-- `c` hangs on `p`, and the block that stood there is at the top level. -/
def swapped (ws : Workspace) (p : BlockId) (link : Link) (c : BlockId) : Workspace :=
  let freed := ws.release c
  (((freed.target? p link).map freed.release).getD freed).plug p link c

/-- The workspace after `c` has been connected to `p`. -/
def connected (registry : Registry) (ws : Workspace) (p : BlockId) (link : Link) (c : BlockId) :
    Workspace :=
  match (ws.release c).target? p link with
  | some old =>
    if takesChain registry ws p link then (ws.swapped p link c).rejoined registry c old
    else ws.swapped p link c
  | none => ws.swapped p link c

section

variable {registry : Registry} {p c : BlockId} {link : Link}

theorem FitsAt.live_parent (h : FitsAt registry ws p link c) : ws.Live p := by
  obtain ⟨tp, tc, htp, -⟩ := h
  exact live_iff_type?.mpr ⟨tp, htp⟩

theorem Connectable.live_parent (h : Connectable registry ws p link c) : ws.Live p :=
  h.fits.live_parent

theorem Connectable.live_child (h : Connectable registry ws p link c) : ws.Live c := by
  obtain ⟨tp, tc, -, htc, -⟩ := h.fits
  exact live_iff_type?.mpr ⟨tc, htc⟩

end

/-! ### The forest after a connection -/

theorem AboveEq.total {a b x : BlockId} (ha : ws.AboveEq a x) (hb : ws.AboveEq b x) :
    ws.AboveEq a b ∨ ws.AboveEq b a := by
  induction ha with
  | refl => exact .inr hb
  | tail ha hx ih =>
    rcases Relation.ReflTransGen.cases_tail hb with rfl | ⟨q, hbq, hq⟩
    · exact .inl (ha.tail hx)
    · obtain ⟨k, hk⟩ := hx
      obtain ⟨l, hl⟩ := hq
      rw [hk] at hl
      cases hl
      exact ih hbq

theorem aboveEq_of_release {id a b : BlockId} (h : (ws.release id).AboveEq a b) :
    ws.AboveEq a b := by
  cases hpar : ws.parent? id with
  | none => rw [release_of_parent?_none hpar] at h; exact h
  | some at? =>
    obtain ⟨p, link⟩ := at?
    refine Relation.ReflTransGen.mono (fun q d ⟨k, hk⟩ => ⟨k, ?_⟩) _ _ h
    rw [parent?_release hpar] at hk
    split at hk
    · simp at hk
    · exact hk

/-- What stands at a link gives way: the link is free, the block that stood there is at the top
level, and so is the block that takes its place. -/
structure Vacated (ws ws' : Workspace) (p : BlockId) (link : Link) (c : BlockId) : Prop where
  forest : ws'.Forest
  live : ∀ id, ws'.Live id ↔ ws.Live id
  free : ws'.target? p link = none
  child : ws'.parent? c = none
  above : ∀ a b, ws'.AboveEq a b → ws.AboveEq a b

theorem Forest.vacate (hf : ws.Forest) (p : BlockId) (link : Link) (c : BlockId) :
    Vacated ws ((((ws.release c).target? p link).map (ws.release c).release).getD (ws.release c))
      p link c := by
  have hf₁ := hf.release c
  cases ht : (ws.release c).target? p link with
  | none =>
    exact ⟨hf₁, fun id => live_release ws c id, ht, parent?_release_self ws c,
      fun a b h => aboveEq_of_release h⟩
  | some old =>
    have hpar := (hf₁.linked p link old).mp ht
    refine ⟨hf₁.release old, fun id => by simp, ?_, ?_, fun a b h =>
      aboveEq_of_release (aboveEq_of_release h)⟩
    · exact (target?_release hpar p link).trans (if_pos rfl)
    · show ((ws.release c).release old).parent? c = none
      rw [parent?_release hpar, parent?_release_self, ite_self]

section

variable {registry : Registry} {p c : BlockId} {link : Link}

theorem Forest.swapped (hf : ws.Forest) (hp : ws.Live p) (hc : ws.Live c)
    (hcp : ¬ ws.AboveEq c p) : (ws.swapped p link c).Forest :=
  have hv := hf.vacate p link c
  hv.forest.plug ((hv.live p).mpr hp) ((hv.live c).mpr hc) hv.free hv.child
    fun h => hcp (hv.above _ _ h)

theorem live_swapped (hf : ws.Forest) (id : BlockId) :
    (ws.swapped p link c).Live id ↔ ws.Live id :=
  (live_plug p c link id).trans ((hf.vacate p link c).live id)

/-- A block that gave way is at the top level, and not above the block that took its place. -/
theorem Forest.swapped_old (hf : ws.Forest) (hp : ws.Live p) (hc : ws.Live c)
    (hcp : ¬ ws.AboveEq c p) {old : BlockId} (hold : (ws.release c).target? p link = some old) :
    (ws.swapped p link c).parent? old = none ∧ ¬ (ws.swapped p link c).AboveEq old c := by
  have hf₁ := hf.release c
  have hpar := (hf₁.linked p link old).mp hold
  have hne : c ≠ old := by
    rintro rfl; rw [parent?_release_self] at hpar; simp at hpar
  have hc₂ : ((ws.release c).release old).Live c := by simpa using hc
  have hsw : ws.swapped p link c = ((ws.release c).release old).plug p link c := by
    rw [Workspace.swapped, hold]; rfl
  have hparent : (ws.swapped p link c).parent? c = some (p, link) := by
    rw [hsw, parent?_plug link hc₂, if_pos rfl]
  constructor
  · rw [hsw, parent?_plug link hc₂, if_neg hne]
    exact parent?_release_self _ _
  -- a way from `old` to `p` is a circle with the link that `old` stood at
  · intro h
    have habove : (ws.swapped p link c).AboveEq old p := by
      rcases aboveEq_iff.mp h with h | h
      · exact absurd h.symm hne
      · exact (above_iff_of_parent? hparent).mp h
    have hnew : ∀ a b, (ws.swapped p link c).ParentOf a b →
        (ws.release c).ParentOf a b ∨ (a = p ∧ b = c) := by
      rintro a b ⟨k, hk⟩
      rw [hsw, parent?_plug link hc₂] at hk
      split at hk
      · next hcb => cases hk; exact .inr ⟨rfl, hcb.symm⟩
      · rw [parent?_release hpar] at hk
        split at hk
        · simp at hk
        · exact .inl ⟨k, hk⟩
    have hpold := hf₁.above_target hold
    rcases aboveEq_iff.mp habove with rfl | habove
    · exact hf₁.acyclic _ hpold
    rcases above_of_new_link hnew habove with h | ⟨-, hcp'⟩
    · exact hf₁.acyclic _ (h.trans hpold)
    · exact hcp (aboveEq_of_release hcp')

theorem Forest.rejoined (hf : ws.Forest) {old : BlockId} (hc : ws.Live c) (hlive : ws.Live old)
    (hold : ws.parent? old = none) (hoc : ¬ ws.AboveEq old c) :
    (ws.rejoined registry c old).Forest := by
  obtain ⟨tail, htail, habove, htl, hnext⟩ :=
    Edit.chainTail_eq hf hc (Nat.lt_succ_of_lt (hf.height_lt hc))
  rw [Workspace.rejoined, htail]
  dsimp only
  split
  · refine hf.plug htl hlive hnext hold fun h => ?_
    rcases AboveEq.total h habove with h | h
    · exact hoc h
    · rcases aboveEq_iff.mp h with rfl | h
      · exact hoc .refl
      · exact not_above_of_parent?_none hold h
  · exact hf

theorem Forest.connected (hf : ws.Forest) (h : Connectable registry ws p link c) :
    (ws.connected registry p link c).Forest := by
  have hsw : (ws.swapped p link c).Forest := hf.swapped h.live_parent h.live_child h.apart
  rw [Workspace.connected]
  split
  · next old hold =>
    split
    · obtain ⟨hpar, hoc⟩ := hf.swapped_old h.live_parent h.live_child h.apart hold
      refine hsw.rejoined ((live_swapped hf c).mpr h.live_child) ?_ hpar hoc
      exact (live_swapped hf old).mpr ((live_release ws c old).mp ((hf.release c).live_target hold))
    · exact hsw
  · exact hsw

end

end Workspace

/-! ### The equations of the two connections -/

namespace Edit

open Workspace

variable {ws : Workspace} {registry : Registry} {p c : BlockId} {link : Link} {slot : String}

theorem apply_reattach (hf : ws.Forest) {old : BlockId} (hc : ws.Live c) (hlive : ws.Live old)
    (hold : ws.parent? old = none) :
    (reattach registry c old).apply ws = (.ok (), ws.rejoined registry c old) := by
  obtain ⟨tail, htail, -, htl, -⟩ := chainTail_eq hf hc (Nat.lt_succ_of_lt (hf.height_lt hc))
  have hdetach := apply_detach hf hlive
  rw [release_of_parent?_none hold] at hdetach
  refine (apply_bind_ok (apply_get ws) _).trans ?_
  refine (apply_bind_ok ((apply_lift _ ws).trans (by rw [htail])) _).trans ?_
  rw [rejoined, htail]
  dsimp only
  split
  · exact (apply_bind_ok hdetach _).trans (apply_attach htl hlive)
  · rfl

/-- What both connections do once their checks are passed, up to a chain that gave way. -/
theorem apply_swap (hf : ws.Forest) (hp : ws.Live p) (hc : ws.Live c) (hcp : ¬ ws.AboveEq c p)
    (rest : Option BlockId → Edit Unit) :
    (do
      ensureAcyclic p c
      detach c
      let displaced ← displace p link
      attach p link c
      rest displaced : Edit Unit).apply ws =
      (rest ((ws.release c).target? p link)).apply (ws.swapped p link c) := by
  have hv := hf.vacate p link c
  refine (apply_bind_ok (apply_ensureAcyclic hf hp hcp) _).trans ?_
  refine (apply_bind_ok (apply_detach hf hc) _).trans ?_
  refine (apply_bind_ok (apply_displace (hf.release c) ((live_release ws c p).mpr hp)) _).trans ?_
  exact apply_bind_ok (apply_attach ((hv.live p).mpr hp) ((hv.live c).mpr hc)) _

/-- A chain that gave way to another is hung behind it. -/
theorem apply_rejoin (hf : ws.Forest) (hp : ws.Live p) (hc : ws.Live c) (hcp : ¬ ws.AboveEq c p)
    {old : BlockId} (hold : (ws.release c).target? p link = some old) :
    (reattach registry c old).apply (ws.swapped p link c) =
      (.ok (), (ws.swapped p link c).rejoined registry c old) := by
  have hlive := (live_release ws c old).mp ((hf.release c).live_target hold)
  exact apply_reattach (hf.swapped hp hc hcp) ((live_swapped hf c).mpr hc)
    ((live_swapped hf old).mpr hlive) (hf.swapped_old hp hc hcp hold).1

theorem apply_connectInput (hf : ws.Forest) (h : Connectable registry ws p (.input slot) c) :
    (connectInput registry p slot c).apply ws =
      (.ok (), ws.connected registry p (.input slot) c) := by
  have hp := h.live_parent
  have hc := h.live_child
  obtain ⟨tp, tc, htp, htc, dp, dc, hdp, hdc, target, htarget, hfit⟩ := h.fits
  obtain ⟨pb, hpb, rfl⟩ := Option.map_eq_some_iff.mp htp
  obtain ⟨cb, hcb, rfl⟩ := Option.map_eq_some_iff.mp htc
  have htakes : takesChain registry ws p (.input slot) = decide (target.kind = .body) := by
    simp [takesChain, htp, hdp, htarget]
  refine (apply_bind_ok (apply_block_ok hpb) _).trans ?_
  refine (apply_bind_ok (apply_block_ok hcb) _).trans ?_
  refine (apply_bind_ok ((apply_lift _ ws).trans (by rw [Registry.lookup_of_lookup? hdp])) _).trans ?_
  refine (apply_bind_ok ((apply_lift _ ws).trans (by rw [Registry.lookup_of_lookup? hdc])) _).trans ?_
  dsimp only
  rw [htarget]
  dsimp only
  rw [hfit]
  refine (apply_swap hf hp hc h.apart _).trans ?_
  rw [connected, htakes]
  cases hold : (ws.release c).target? p (.input slot) with
  | none => rfl
  | some old =>
    cases hkind : target.kind with
    | body => simpa using apply_rejoin hf hp hc h.apart hold
    | value => simp
    | literal kind => simp

theorem connectInput_fault (hf : ws.Forest) (h : ¬ Connectable registry ws p (.input slot) c) :
    ∃ fault, (connectInput registry p slot c).apply ws = (.error fault, ws) := by
  rw [connectInput]
  by_cases hp : ws.Live p
  case neg =>
    exact ⟨_, apply_bind_error (by rw [apply_block, Workspace.get, not_live_iff.mp hp]) _⟩
  obtain ⟨pb, hpb⟩ := hp
  rw [apply_bind_ok (apply_block_ok hpb)]
  by_cases hc : ws.Live c
  case neg =>
    exact ⟨_, apply_bind_error (by rw [apply_block, Workspace.get, not_live_iff.mp hc]) _⟩
  obtain ⟨cb, hcb⟩ := hc
  rw [apply_bind_ok (apply_block_ok hcb)]
  cases hdp : registry.lookup? pb.typeId with
  | none =>
    exact ⟨_, apply_bind_error (by rw [apply_lift, Registry.lookup_of_lookup?_none hdp]) _⟩
  | some dp =>
    rw [apply_bind_ok (by rw [apply_lift, Registry.lookup_of_lookup? hdp])]
    cases hdc : registry.lookup? cb.typeId with
    | none =>
      exact ⟨_, apply_bind_error (by rw [apply_lift, Registry.lookup_of_lookup?_none hdc]) _⟩
    | some dc =>
      rw [apply_bind_ok (by rw [apply_lift, Registry.lookup_of_lookup? hdc])]
      cases htarget : dp.schema.slot? slot with
      | none => exact ⟨_, rfl⟩
      | some target =>
        dsimp only
        cases hfit : misfit? target.kind dc.schema.shape with
        | some misfit => exact ⟨_, rfl⟩
        | none =>
          have hcp : ws.AboveEq c p := by
            by_contra hcp
            exact h ⟨⟨_, _, type?_of_get? hpb, type?_of_get? hcb, dp, dc, hdp, hdc, target, htarget,
              hfit⟩, hcp⟩
          exact ⟨_, apply_bind_error (apply_ensureAcyclic_error hf ⟨pb, hpb⟩ hcp) _⟩

theorem acceptsNext_iff {id : BlockId} :
    acceptsNext registry ws id = true ↔
      ∃ t d, ws.type? id = some t ∧ registry.lookup? t = some d ∧ d.schema.hasNext = true ∧
        d.schema.shape.fitsStatement = true := by
  unfold acceptsNext type?
  cases ws.get? id with
  | none => simp
  | some b =>
    cases hd : registry.lookup? b.typeId with
    | none => simp [hd]
    | some d => simp [hd]

theorem apply_connectNext (hf : ws.Forest) (h : Connectable registry ws p .next c) :
    (connectNext registry p c).apply ws = (.ok (), ws.connected registry p .next c) := by
  have hp := h.live_parent
  have hc := h.live_child
  obtain ⟨tp, tc, htp, htc, dp, dc, hdp, hdc, hnext, hps, hcs⟩ := h.fits
  have haccepts : acceptsNext registry ws p = true :=
    acceptsNext_iff.mpr ⟨tp, dp, htp, hdp, hnext, hps⟩
  obtain ⟨pb, hpb, rfl⟩ := Option.map_eq_some_iff.mp htp
  obtain ⟨cb, hcb, rfl⟩ := Option.map_eq_some_iff.mp htc
  refine (apply_bind_ok (apply_block_ok hpb) _).trans ?_
  refine (apply_bind_ok (apply_block_ok hcb) _).trans ?_
  refine (apply_bind_ok (apply_get ws) _).trans ?_
  rw [haccepts]
  refine (apply_bind_ok ((apply_lift _ ws).trans (by rw [Registry.lookup_of_lookup? hdc])) _).trans ?_
  dsimp only
  rw [hcs]
  refine (apply_swap hf hp hc h.apart _).trans ?_
  rw [connected, takesChain]
  cases hold : (ws.release c).target? p .next with
  | none => rfl
  | some old => simpa using apply_rejoin hf hp hc h.apart hold

theorem connectNext_fault (hf : ws.Forest) (h : ¬ Connectable registry ws p .next c) :
    ∃ fault, (connectNext registry p c).apply ws = (.error fault, ws) := by
  rw [connectNext]
  by_cases hp : ws.Live p
  case neg =>
    exact ⟨_, apply_bind_error (by rw [apply_block, Workspace.get, not_live_iff.mp hp]) _⟩
  obtain ⟨pb, hpb⟩ := hp
  rw [apply_bind_ok (apply_block_ok hpb)]
  by_cases hc : ws.Live c
  case neg =>
    exact ⟨_, apply_bind_error (by rw [apply_block, Workspace.get, not_live_iff.mp hc]) _⟩
  obtain ⟨cb, hcb⟩ := hc
  rw [apply_bind_ok (apply_block_ok hcb), apply_bind_ok (apply_get ws)]
  cases haccepts : acceptsNext registry ws p with
  | false =>
    cases hdp : registry.lookup pb.typeId with
    | error fault => exact ⟨fault, by simp [apply_bind]⟩
    | ok d => exact ⟨.noNext pb.typeId, by simp [apply_bind]⟩
  | true =>
    obtain ⟨tp, dp, htp, hdp, hnext, hps⟩ := acceptsNext_iff.mp haccepts
    cases hdc : registry.lookup? cb.typeId with
    | none =>
      exact ⟨_, apply_bind_error (by rw [apply_lift, Registry.lookup_of_lookup?_none hdc]) _⟩
    | some dc =>
      refine Exists.imp (fun fault hfault => (apply_bind_ok
        ((apply_lift _ ws).trans (by rw [Registry.lookup_of_lookup? hdc])) _).trans hfault) ?_
      dsimp only
      cases hcs : dc.schema.shape.fitsStatement with
      | false => exact ⟨_, rfl⟩
      | true =>
        have hcp : ws.AboveEq c p := by
          by_contra hcp
          exact h ⟨⟨tp, _, htp, type?_of_get? hcb, dp, dc, hdp, hdc, hnext, hps, hcs⟩, hcp⟩
        exact ⟨_, apply_bind_error (apply_ensureAcyclic_error hf ⟨pb, hpb⟩ hcp) _⟩

end Edit

end Blockwright
