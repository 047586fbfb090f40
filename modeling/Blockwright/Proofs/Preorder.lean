import Blockwright.Proofs.Connections
import Blockwright.Proofs.Deletion

/-!
# The blocks of a forest in order

`Preorder ws ids order` lists the blocks below `ids`: each block comes before those in its slots, by
slot name, and these before the block that follows it. In a forest there is such a list of the
stacks, and it holds every live block once (`Forest.exists_preorder`).
-/

namespace Blockwright.Workspace

variable {ws : Workspace} {ids ids' order order' : List BlockId} {id j : BlockId}

/-- `order` lists the blocks of the trees under `ids` from the root down. -/
inductive Preorder (ws : Workspace) : List BlockId → List BlockId → Prop
  | nil : Preorder ws [] []
  | cons {id : BlockId} {b : Block} {ids below rest : List BlockId} (hb : ws.get? id = some b)
      (hbelow : Preorder ws b.children below) (hrest : Preorder ws ids rest) :
      Preorder ws (id :: ids) (id :: (below ++ rest))

theorem Preorder.of_append (h : Preorder ws (ids ++ ids') order) :
    ∃ u v, order = u ++ v ∧ Preorder ws ids u ∧ Preorder ws ids' v := by
  induction ids generalizing order with
  | nil => exact ⟨[], order, rfl, .nil, h⟩
  | cons id ids ih =>
    obtain _ | ⟨hb, hbelow, hrest⟩ := h
    obtain ⟨u, v, rfl, hu, hv⟩ := ih hrest
    exact ⟨_, v, by simp, .cons hb hbelow hu, hv⟩

theorem Forest.aboveEq_iff_child (hf : ws.Forest) {b : Block} (hb : ws.get? id = some b) :
    ws.AboveEq id j ↔ j = id ∨ ∃ c ∈ b.children, ws.AboveEq c j := by
  rw [← hf.reaches_iff, Reaches, Relation.ReflTransGen.cases_head_iff, eq_comm]
  refine or_congr Iff.rfl (exists_congr fun c => ?_)
  rw [Workspace.linkTo_iff hb, ← hf.reaches_iff]
  rfl

theorem Preorder.mem_iff (hf : ws.Forest) (h : Preorder ws ids order) :
    j ∈ order ↔ ∃ i ∈ ids, ws.AboveEq i j := by
  induction h with
  | nil => simp
  | cons hb _ _ ihbelow ihrest =>
    simp only [List.mem_cons, List.mem_append, ihbelow, ihrest, exists_eq_or_imp]
    rw [hf.aboveEq_iff_child hb, or_assoc]

/-! ### No block twice -/

theorem Forest.parent?_of_mem_children (hf : ws.Forest) {b : Block} (hb : ws.get? id = some b)
    (h : j ∈ b.children) : ∃ link, ws.parent? j = some (id, link) :=
  hf.linkTo_iff.mp ((Workspace.linkTo_iff hb).mpr h)

theorem Forest.parent?_of_mem_inputs (hf : ws.Forest) {b : Block} (hb : ws.get? id = some b)
    {e : String × BlockId} (h : e ∈ b.inputs.entries) : ws.parent? e.2 = some (id, .input e.1) :=
  (hf.linked ..).mp ((target?_of_get? hb _).trans (b.inputs.get?_eq_some_iff.mpr h))

/-- No block hangs at two links. -/
theorem Forest.nodup_children (hf : ws.Forest) {b : Block} (hb : ws.get? id = some b) :
    b.children.Nodup := by
  have hentries : b.inputs.entries.Nodup := by
    refine List.Pairwise.imp ?_ b.inputs.ascending
    rintro e _ hlt rfl
    exact String.lt_irrefl _ hlt
  refine List.nodup_append.mpr ⟨?_, ?_, ?_⟩
  · refine List.Nodup.map_on ?_ hentries
    rintro ⟨slot, c⟩ hmem ⟨slot', c'⟩ hmem' (rfl : c = c')
    have hslot : some (id, Link.input slot) = some (id, .input slot') :=
      (hf.parent?_of_mem_inputs hb hmem).symm.trans (hf.parent?_of_mem_inputs hb hmem')
    cases hslot
    rfl
  · cases b.next <;> simp
  · rintro c hc c' hc' rfl
    obtain ⟨⟨slot, c⟩, hmem, rfl⟩ := List.mem_map.mp hc
    have hnext : ws.parent? c = some (id, .next) :=
      (hf.linked ..).mp ((target?_of_get? hb _).trans (Option.mem_toList.mp hc'))
    have hparent := (hf.parent?_of_mem_inputs hb hmem).symm.trans hnext
    cases hparent

/-- Blocks of which none is above another stand over different blocks. -/
theorem Preorder.nodup (hf : ws.Forest) (h : Preorder ws ids order) (hids : ids.Nodup)
    (hfree : ∀ a ∈ ids, ∀ b ∈ ids, ¬ ws.Above a b) : order.Nodup := by
  induction h with
  | nil => exact List.nodup_nil
  | @cons id b ids below rest hb hbelow hrest ihbelow ihrest =>
    obtain ⟨hid, hids⟩ := List.nodup_cons.mp hids
    have hchild : ∀ c ∈ b.children, ws.Above id c := fun c hc =>
      ParentOf.above (hf.parent?_of_mem_children hb hc)
    have hbelow' : below.Nodup := by
      refine ihbelow (hf.nodup_children hb) fun a ha c hc hac => ?_
      obtain ⟨link, hlink⟩ := hf.parent?_of_mem_children hb hc
      rcases aboveEq_iff.mp ((above_iff_of_parent? hlink).mp hac) with rfl | hup
      · exact hf.acyclic a (hchild a ha)
      · exact hf.acyclic a (hup.trans (hchild a ha))
    have hrest' : rest.Nodup := ihrest hids fun a ha c hc =>
      hfree a (List.mem_cons_of_mem _ ha) c (List.mem_cons_of_mem _ hc)
    have hunder : ∀ j ∈ below, ws.Above id j := by
      intro j hj
      obtain ⟨c, hc, hcj⟩ := (hbelow.mem_iff hf).mp hj
      exact Relation.TransGen.trans_left (hchild c hc) hcj
    -- A block that is under `id` and under a later root has the two above each other.
    have hapart : ∀ j, ws.AboveEq id j → j ∉ rest := by
      intro j hj hmem
      obtain ⟨i, hi, hij⟩ := (hrest.mem_iff hf).mp hmem
      have hne : id ≠ i := fun heq => hid (heq ▸ hi)
      rcases hj.total hij with h | h
      · exact hfree id (List.mem_cons_self ..) i (List.mem_cons_of_mem _ hi)
          ((aboveEq_iff.mp h).resolve_left hne)
      · exact hfree i (List.mem_cons_of_mem _ hi) id (List.mem_cons_self ..)
          ((aboveEq_iff.mp h).resolve_left hne.symm)
    refine List.nodup_cons.mpr ⟨fun hmem => ?_, List.nodup_append.mpr ⟨hbelow', hrest', ?_⟩⟩
    · rcases List.mem_append.mp hmem with hmem | hmem
      · exact hf.acyclic id (hunder id hmem)
      · exact hapart id .refl hmem
    · rintro j hj _ hj' rfl
      exact hapart j (hunder j hj).to_reflTransGen hj'

/-! ### Every live block -/

theorem Forest.exists_preorder_of_live (hf : ws.Forest) (hids : ∀ id ∈ ids, ws.Live id) :
    ∃ order, Preorder ws ids order := by
  have hbounded : ∀ n ids, (∀ id ∈ ids, ws.Live id ∧ ws.height id < n) →
      ∃ order, Preorder ws ids order := by
    intro n
    induction n with
    | zero =>
      intro ids h
      cases ids with
      | nil => exact ⟨[], .nil⟩
      | cons id ids => exact absurd (h id (List.mem_cons_self ..)).2 (Nat.not_lt_zero _)
    | succ n ih =>
      intro ids
      induction ids with
      | nil => exact fun _ => ⟨[], .nil⟩
      | cons id ids ihids =>
        intro h
        obtain ⟨⟨b, hb⟩, hheight⟩ := h id (List.mem_cons_self ..)
        obtain ⟨below, hbelow⟩ := ih b.children fun c hc => by
          have habove : ws.Above id c := ParentOf.above (hf.parent?_of_mem_children hb hc)
          have hlt := hf.height_lt_of_above habove
          exact ⟨habove.live, by omega⟩
        obtain ⟨rest, hrest⟩ := ihids fun c hc => h c (List.mem_cons_of_mem _ hc)
        exact ⟨_, .cons hb hbelow hrest⟩
  exact hbounded ws.capacity ids fun id hid => ⟨hids id hid, hf.height_lt (hids id hid)⟩

theorem Forest.exists_root (hf : ws.Forest) (h : ws.Live j) : ∃ r ∈ ws.top, ws.AboveEq r j := by
  induction hn : ws.depth j using Nat.strong_induction_on generalizing j with
  | _ n ih =>
    cases hpar : ws.parent? j with
    | none => exact ⟨j, (hf.mem_top j).mpr ⟨h, hpar⟩, .refl⟩
    | some at? =>
      obtain ⟨p, link⟩ := at?
      have hlt := hf.depth_lt_of_above (ParentOf.above ⟨link, hpar⟩)
      obtain ⟨r, hr, hrp⟩ := ih _ (hn ▸ hlt) (hf.live_parent hpar) rfl
      exact ⟨r, hr, hrp.tail ⟨link, hpar⟩⟩

/-- The stacks of a forest hold every live block once. -/
theorem Forest.exists_preorder (hf : ws.Forest) : ∃ order, Preorder ws ws.topBlocks order ∧
    order.Nodup ∧ ∀ id, id ∈ order ↔ ws.Live id := by
  have hroot : ∀ id ∈ ws.topBlocks, ws.Live id ∧ ws.parent? id = none := fun id hid =>
    (hf.mem_top id).mp (mem_topBlocks.mp hid)
  obtain ⟨order, horder⟩ := hf.exists_preorder_of_live fun id hid => (hroot id hid).1
  refine ⟨order, horder, horder.nodup hf ?_ ?_, fun id => ?_⟩
  · exact (List.mergeSort_perm ws.top _).nodup_iff.mpr hf.top_nodup
  · exact fun a _ b hb => not_above_of_parent?_none (hroot b hb).2
  · rw [horder.mem_iff hf]
    constructor
    · rintro ⟨r, hr, hrid⟩
      rcases aboveEq_iff.mp hrid with rfl | habove
      · exact (hroot r hr).1
      · exact habove.live
    · intro hid
      obtain ⟨r, hr, hrid⟩ := hf.exists_root hid
      exact ⟨r, mem_topBlocks.mpr hr, hrid⟩

end Blockwright.Workspace
