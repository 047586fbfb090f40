import Blockwright.Proofs.Connections
import Blockwright.Proofs.Deletion

/-!
# Histories of a workspace

A workspace comes about by operations, one after the other, of which some may stop with a fault.
`Move` lists all that an operation can do to a forest (`Workspace.perform_move`), and
`Workspace.after_induction` carries a property through every history. The first such property is
that the workspace is a forest.
-/

namespace Blockwright

/-- The operations of an editor. -/
inductive Operation
  | add (typeId : String)
  | setField (id : BlockId) (name value : String)
  | setPosition (id : BlockId) (position : Position)
  | connectInput (parent : BlockId) (slot : String) (child : BlockId)
  | connectNext (prev child : BlockId)
  | disconnect (id : BlockId)
  | delete (id : BlockId)
  | toggleArguments (id : BlockId)

/-- The edit that an operation stands for; what it returns is left out. -/
def Operation.edit (registry : Registry) : Operation → Edit Unit
  | .add typeId => do let _ ← Edit.add typeId
  | .setField id name value => Edit.setField id name value
  | .setPosition id position => Edit.setPosition id position
  | .connectInput parent slot child => Edit.connectInput registry parent slot child
  | .connectNext prev child => Edit.connectNext registry prev child
  | .disconnect id => Edit.disconnect id
  | .delete id => Edit.delete id
  | .toggleArguments id => do let _ ← Edit.toggleArguments registry id

/-- A change of a block that keeps its number, its type and its links. -/
structure Payload (f : Block → Block) : Prop where
  id : ∀ b, (f b).id = b.id
  typeId : ∀ b, (f b).typeId = b.typeId
  target? : ∀ b link, (f b).target? link = b.target? link
  parent : ∀ b, (f b).parent = b.parent

namespace Workspace

variable {ws ws' : Workspace} {registry : Registry}

/-- The workspace after an operation, also if it stopped with a fault. -/
def perform (registry : Registry) (ws : Workspace) (op : Operation) : Workspace :=
  ((op.edit registry).apply ws).2

/-- The workspace after operations that started with no block. -/
def after (registry : Registry) (ops : List Operation) : Workspace :=
  ops.foldl (perform registry) empty

/-- The workspace with a new block at the top level. -/
def added (ws : Workspace) (typeId : String) : Workspace :=
  { ws with
    blocks := ws.blocks.push (some { id := ⟨ws.capacity⟩, typeId })
    top := ws.top ++ [⟨ws.capacity⟩] }

/-- All that an operation can do. -/
inductive Move (registry : Registry) (ws : Workspace) : Workspace → Prop
  | stay : Move registry ws ws
  | add (typeId : String) : Move registry ws (ws.added typeId)
  | change (id : BlockId) (f : Block → Block) (hf : Payload f) : Move registry ws (ws.update id f)
  | release (id : BlockId) : Move registry ws (ws.release id)
  | connect (p : BlockId) (link : Link) (c : BlockId) (h : Connectable registry ws p link c) :
    Move registry ws (ws.connected registry p link c)
  | delete (id : BlockId) : Move registry ws (ws.deleted id)

/-! ### A new block -/

theorem get?_added (ws : Workspace) (typeId : String) (j : BlockId) :
    (ws.added typeId).get? j =
      if j = ⟨ws.capacity⟩ then some { id := ⟨ws.capacity⟩, typeId } else ws.get? j := by
  simp only [get?, added, Array.getElem?_push, capacity]
  by_cases h : j.index = ws.blocks.size
  · have : j = ⟨ws.blocks.size⟩ := by cases j; simp_all
    simp [this]
  · have : j ≠ ⟨ws.blocks.size⟩ := by rintro rfl; exact h rfl
    simp [h, this]

theorem live_added (ws : Workspace) (typeId : String) (j : BlockId) :
    (ws.added typeId).Live j ↔ j = ⟨ws.capacity⟩ ∨ ws.Live j := by
  rw [Live, get?_added]
  by_cases h : j = ⟨ws.capacity⟩ <;> simp [h, Live]

theorem get?_capacity (ws : Workspace) : ws.get? ⟨ws.capacity⟩ = none :=
  not_live_iff.mp fun h => Nat.lt_irrefl _ h.lt_capacity

theorem target?_added (ws : Workspace) (typeId : String) (p : BlockId) (link : Link) :
    (ws.added typeId).target? p link = ws.target? p link := by
  rw [target?, get?_added, target?]
  split
  · next h => rw [h, get?_capacity]; cases link <;> rfl
  · rfl

theorem parent?_added (ws : Workspace) (typeId : String) (c : BlockId) :
    (ws.added typeId).parent? c = ws.parent? c := by
  rw [parent?, get?_added, parent?]
  split
  · next h => rw [h, get?_capacity]; rfl
  · rfl

theorem Forest.added (hf : ws.Forest) (typeId : String) : (ws.added typeId).Forest := by
  have hnew : ws.parent? ⟨ws.capacity⟩ = none := by rw [parent?, get?_capacity]; rfl
  have hnot : (⟨ws.capacity⟩ : BlockId) ∉ ws.top := fun h =>
    not_live_iff.mpr (get?_capacity ws) ((hf.mem_top _).mp h).1
  refine ⟨fun j b hb => ?_, fun p k c => ?_, fun j hj => ?_, fun j => ?_, ?_⟩
  · rw [get?_added] at hb
    split at hb
    · next h => cases hb; exact h.symm
    · exact hf.numbered j b hb
  · rw [target?_added, parent?_added]; exact hf.linked p k c
  · refine hf.acyclic j (hj.mono ?_)
    rintro p c ⟨k, hk⟩
    exact ⟨k, by rwa [parent?_added] at hk⟩
  · show j ∈ ws.top ++ [⟨ws.capacity⟩] ↔ _
    rw [parent?_added, live_added, List.mem_append, List.mem_singleton, hf.mem_top]
    by_cases h : j = ⟨ws.capacity⟩
    · simp [h, hnew]
    · simp [h]
  · show (ws.top ++ [(⟨ws.capacity⟩ : BlockId)]).Nodup
    exact List.concat_eq_append ▸ hf.top_nodup.concat hnot

/-! ### Moves -/

theorem Forest.move (hf : ws.Forest) (h : Move registry ws ws') : ws'.Forest := by
  cases h with
  | stay => exact hf
  | add typeId => exact hf.added typeId
  | change id f h => exact hf.update h.id h.target? h.parent
  | release id => exact hf.release id
  | connect p link c h => exact hf.connected h
  | delete id => exact hf.deleted id

theorem payload_setField (name value : String) :
    Payload fun b => { b with fields := b.fields.insert name value } :=
  ⟨fun _ => rfl, fun _ => rfl, fun _ link => by cases link <;> rfl, fun _ => rfl⟩

theorem payload_setPosition (position : Position) :
    Payload fun b => { b with position := some position } :=
  ⟨fun _ => rfl, fun _ => rfl, fun _ link => by cases link <;> rfl, fun _ => rfl⟩

theorem payload_expandArguments (params : List String) : Payload (Edit.expandArguments params) :=
  ⟨fun _ => rfl, fun _ => rfl, fun _ link => by cases link <;> rfl, fun _ => rfl⟩

theorem payload_compactArguments (params : List String) : Payload (Edit.compactArguments params) :=
  ⟨fun _ => rfl, fun _ => rfl, fun _ link => by cases link <;> rfl, fun _ => rfl⟩

theorem alter_move (id : BlockId) {f : Block → Block} (hf : Payload f) :
    Move registry ws ((Edit.alter id f).apply ws).2 := by
  by_cases h : ws.Live id
  · rw [Edit.apply_alter h]; exact .change id f hf
  · rw [Edit.apply_alter_missing h]; exact .stay

theorem apply_disconnect (hf : ws.Forest) {id : BlockId} (h : ws.Live id) :
    (Edit.disconnect id).apply ws = (.ok (), ws.release id) := by
  have hmem : id ∈ (ws.release id).top :=
    ((hf.release id).mem_top id).mpr ⟨(live_release ..).mpr h, parent?_release_self ws id⟩
  rw [Edit.disconnect, Edit.apply_bind_ok (Edit.apply_detach hf h),
    Edit.apply_bind_ok (Edit.apply_get _)]
  simp [hmem]

theorem disconnect_move (hf : ws.Forest) (id : BlockId) :
    Move registry ws ((Edit.disconnect id).apply ws).2 := by
  by_cases h : ws.Live id
  · rw [apply_disconnect hf h]; exact .release id
  · rw [Edit.disconnect, Edit.apply_bind_error (Edit.apply_detach_missing h)]; exact .stay

theorem delete_move (hf : ws.Forest) (id : BlockId) :
    Move registry ws ((Edit.delete id).apply ws).2 := by
  by_cases h : ws.Live id
  · rw [Edit.apply_delete hf h]; exact .delete id
  · rw [Edit.apply_delete_missing h]; exact .stay

theorem connectInput_move (hf : ws.Forest) (p : BlockId) (slot : String) (c : BlockId) :
    Move registry ws ((Edit.connectInput registry p slot c).apply ws).2 := by
  by_cases h : Connectable registry ws p (.input slot) c
  · rw [Edit.apply_connectInput hf h]; exact .connect p (.input slot) c h
  · obtain ⟨fault, hfault⟩ := Edit.connectInput_fault hf h
    rw [hfault]; exact .stay

theorem connectNext_move (hf : ws.Forest) (p c : BlockId) :
    Move registry ws ((Edit.connectNext registry p c).apply ws).2 := by
  by_cases h : Connectable registry ws p .next c
  · rw [Edit.apply_connectNext hf h]; exact .connect p .next c h
  · obtain ⟨fault, hfault⟩ := Edit.connectNext_fault hf h
    rw [hfault]; exact .stay

theorem toggleArguments_move (id : BlockId) :
    Move registry ws ((Edit.toggleArguments registry id).apply ws).2 := by
  rw [Edit.toggleArguments]
  cases hb : ws.get? id with
  | none => rw [Edit.apply_bind_error (by rw [Edit.apply_block, Workspace.get, hb])]; exact .stay
  | some b =>
    rw [Edit.apply_bind_ok (Edit.apply_block_ok hb)]
    cases hd : registry.lookup? b.typeId with
    | none =>
      rw [Edit.apply_bind_error (by rw [Edit.apply_lift, Registry.lookup_of_lookup?_none hd])]
      exact .stay
    | some d =>
      rw [Edit.apply_bind_ok (by rw [Edit.apply_lift, Registry.lookup_of_lookup? hd])]
      cases d.callRule? with
      | none => exact .stay
      | some call =>
        dsimp only
        split
        · exact .stay
        · have hput : ∀ f, ws.put id (f b) = ws.update id f := fun f => by simp [update, hb]
          rw [Edit.apply_bind_ok (Edit.apply_modify _ ws)]
          cases hm : b.mode with
          | compact =>
            show Move registry ws (ws.put id (Edit.expandArguments call.params b))
            rw [hput]; exact .change id _ (payload_expandArguments _)
          | expanded =>
            show Move registry ws (ws.put id (Edit.compactArguments call.params b))
            rw [hput]; exact .change id _ (payload_compactArguments _)

/-- An operation makes one move. -/
theorem perform_move (hf : ws.Forest) (op : Operation) :
    Move registry ws (ws.perform registry op) := by
  cases op with
  | add typeId => exact .add typeId
  | setField id name value => exact alter_move id (payload_setField name value)
  | setPosition id position => exact alter_move id (payload_setPosition position)
  | connectInput p slot c => exact connectInput_move hf p slot c
  | connectNext p c => exact connectNext_move hf p c
  | disconnect id => exact disconnect_move hf id
  | delete id => exact delete_move hf id
  | toggleArguments id =>
    have h : Move registry ws ((Edit.toggleArguments registry id).apply ws).2 :=
      toggleArguments_move id
    rw [perform, Operation.edit, Edit.apply_bind]
    split <;> simp_all

/-- What holds of the workspace without blocks and is kept by every move of a forest holds after
every history. -/
theorem after_induction {P : Workspace → Prop} (hempty : P empty)
    (hmove : ∀ ws ws', ws.Forest → P ws → Move registry ws ws' → P ws') (ops : List Operation) :
    (after registry ops).Forest ∧ P (after registry ops) := by
  have hrun : ∀ ws : Workspace, ws.Forest → P ws →
      (ops.foldl (perform registry) ws).Forest ∧ P (ops.foldl (perform registry) ws) := by
    induction ops with
    | nil => exact fun ws hf hP => ⟨hf, hP⟩
    | cons op ops ih =>
      intro ws hf hP
      have hm : Move registry ws (ws.perform registry op) := perform_move hf op
      exact ih _ (hf.move hm) (hmove _ _ hf hP hm)
  exact hrun empty forest_empty hempty

theorem after_forest (registry : Registry) (ops : List Operation) : (after registry ops).Forest :=
  (after_induction (P := fun _ => True) trivial (fun _ _ _ _ _ => trivial) ops).1

/-- After every history of operations, with any arguments and faults included: a block stands at its
number; a link of a block leads to a live block that hangs at just that link; a block hangs at a link
of a live block that leads to it; no block is its own ancestor; and the top list holds the live
blocks that hang nowhere, each once. -/
theorem after_links_agree (registry : Registry) (ops : List Operation) :
    let ws := after registry ops
    (∀ (i : Nat) (b : Block), ws.blocks[i]? = some (some b) → b.id = ⟨i⟩) ∧
    (∀ p b link c, ws.get? p = some b → b.target? link = some c →
      ∃ d, ws.get? c = some d ∧ d.parent = some (p, link)) ∧
    (∀ c d p link, ws.get? c = some d → d.parent = some (p, link) →
      ∃ b, ws.get? p = some b ∧ b.target? link = some c) ∧
    (∀ id, ¬ ws.Above id id) ∧
    (∀ id, id ∈ ws.top ↔ ∃ b, ws.get? id = some b ∧ b.parent = none) ∧ ws.top.Nodup := by
  intro ws
  have hf : ws.Forest := after_forest registry ops
  refine ⟨fun i b hb => ?_, fun p b link c hb hc => ?_, fun c d p link hd hp => ?_, hf.acyclic,
    fun id => ?_, hf.top_nodup⟩
  · exact hf.numbered ⟨i⟩ b (by simp [get?, hb])
  · have hpar := (hf.linked p link c).mp ((target?_of_get? hb link).trans hc)
    exact Option.bind_eq_some_iff.mp hpar
  · have htarget := (hf.linked p link c).mpr ((parent?_of_get? hd).trans hp)
    exact Option.bind_eq_some_iff.mp htarget
  · rw [hf.mem_top]
    constructor
    · rintro ⟨⟨b, hb⟩, hpar⟩
      exact ⟨b, hb, (parent?_of_get? hb).symm.trans hpar⟩
    · rintro ⟨b, hb, hpar⟩
      exact ⟨⟨b, hb⟩, (parent?_of_get? hb).trans hpar⟩

end Workspace

end Blockwright
