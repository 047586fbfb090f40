import Blockwright.Proofs.Effects
import Blockwright.Proofs.Registration
import Mathlib.Data.List.Nodup
import Mathlib.Data.List.Induction

/-!
# The order of stacks

Every operation keeps the blocks at the top level in their order, drops some and puts at most one
new one behind them (`Move.refilled`). So the top list is in the order in which its blocks came to the
top level for the last time (`after_top_rootBefore`), and this is what a stable sort by place keeps
among blocks of one place. Main statement: `after_topBlocks_listed_iff`.
-/

namespace Blockwright

/-! ### Stable sorting -/

section Stable

variable {α : Type} {l : List α} {a b : α}

theorem pair_sublist_or (ha : a ∈ l) (hb : b ∈ l) (hne : a ≠ b) :
    [a, b].Sublist l ∨ [b, a].Sublist l := by
  obtain ⟨s, t, rfl⟩ := List.append_of_mem ha
  rcases List.mem_append.mp hb with hb | hb
  · exact .inr ((List.singleton_sublist.mpr hb).append (List.singleton_sublist.mpr (by simp)))
  · have hb : b ∈ t := (List.mem_cons.mp hb).resolve_left (Ne.symm hne)
    exact .inl (((List.singleton_sublist.mpr hb).cons_cons a).trans (List.sublist_append_right s _))

theorem not_pair_sublist [DecidableEq α] (hl : l.Nodup) (hab : [a, b].Sublist l) :
    ¬ [b, a].Sublist l := by
  have hidx : l.Pairwise fun x y => l.idxOf x < l.idxOf y := by
    refine List.pairwise_iff_getElem.mpr fun i j hi hj hij => ?_
    rwa [hl.idxOf_getElem i hi, hl.idxOf_getElem j hj]
  have hlt : l.idxOf a < l.idxOf b := List.pairwise_iff_forall_sublist.mp hidx hab
  exact fun hba => Nat.lt_asymm hlt (List.pairwise_iff_forall_sublist.mp hidx hba)

/-- What holds of any two elements in the order of a list, holds of two elements of equal rank in
the order of the sorted list. -/
theorem pairwise_mergeSort_stable [DecidableEq α] {le : α → α → Bool} {R : α → α → Prop}
    (htrans : ∀ a b c, le a b = true → le b c = true → le a c = true)
    (htotal : ∀ a b, (le a b || le b a) = true) (hl : l.Nodup) (hR : l.Pairwise R) :
    (l.mergeSort le).Pairwise fun a b => le a b = true ∧ (le b a = true → R a b) := by
  have hnodup : (l.mergeSort le).Nodup := (List.mergeSort_perm l le).nodup_iff.mpr hl
  refine List.pairwise_iff_forall_sublist.mpr fun {a b} hab => ⟨?_, fun hle => ?_⟩
  · exact List.pairwise_iff_forall_sublist.mp (List.pairwise_mergeSort htrans htotal l) hab
  · have ha : a ∈ l := List.mem_mergeSort.mp (hab.subset (by simp))
    have hb : b ∈ l := List.mem_mergeSort.mp (hab.subset (by simp))
    have hne : a ≠ b := by
      rintro rfl
      exact List.nodup_iff_sublist.mp hnodup a hab
    refine List.pairwise_iff_forall_sublist.mp hR ((pair_sublist_or ha hb hne).resolve_right ?_)
    exact fun hba => not_pair_sublist hnodup hab (List.pair_sublist_mergeSort htrans htotal hle hba)

end Stable

/-! ### Places -/

namespace Position

variable {p q : Position}

/-- The far end of the canvas. -/
def corner : Position := { x := Int64.maxValue, y := Int64.maxValue }

/-- On a line above, or on the same line and further left. -/
def Before (p q : Position) : Prop := p.y < q.y ∨ p.y = q.y ∧ p.x < q.x

theorem keyLe_iff : Workspace.keyLe (p.y, p.x) (q.y, q.x) = true ↔ p.Before q ∨ p = q := by
  have heq : p = q ↔ p.y = q.y ∧ p.x = q.x := by
    cases p
    cases q
    simp [and_comm]
  rw [Workspace.keyLe, heq, Before]
  simp only [Bool.or_eq_true, Bool.and_eq_true, beq_iff_eq, decide_eq_true_eq]
  rw [Int64.le_iff_lt_or_eq, and_or_left, or_assoc]

theorem Before.asymm (h : p.Before q) : ¬ q.Before p := by
  rcases h with hy | ⟨hy, hx⟩
  · rintro (hy' | ⟨hy', -⟩)
    · exact Int64.lt_asymm hy hy'
    · exact Int64.lt_irrefl (hy' ▸ hy)
  · rintro (hy' | ⟨-, hx'⟩)
    · exact Int64.lt_irrefl (hy ▸ hy')
    · exact Int64.lt_asymm hx hx'

theorem not_before_self (p : Position) : ¬ p.Before p := fun h => h.asymm h

theorem not_corner_before (q : Position) : ¬ corner.Before q := by
  have hmax : ∀ n : Int64, ¬ Int64.maxValue < n := fun n h => by
    rw [Int64.lt_iff_toInt_lt] at h
    have := n.toInt_le
    omega
  rintro (hy | ⟨-, hx⟩)
  · exact hmax q.y hy
  · exact hmax q.x hx

end Position

namespace Workspace

variable {ws ws' : Workspace} {registry : Registry} {a b c p id old : BlockId} {link : Link}
  {ops : List Operation} {op : Operation}

/-- The block is live and hangs nowhere. -/
def IsRoot (ws : Workspace) (id : BlockId) : Prop := ws.Live id ∧ ws.parent? id = none

/-! ### What an operation does to the top list -/

theorem Forest.top_swapped (hf : ws.Forest) (p : BlockId) (link : Link) (c : BlockId) :
    (ws.swapped p link c).top =
      ws.top.filter (· ≠ c) ++ ((ws.release c).target? p link).toList := by
  have hkept : (ws.release c).top.filter (· ≠ c) = ws.top.filter (· ≠ c) :=
    (top_deleted ws c).symm.trans (top_deleted_eq ws c)
  rw [Workspace.swapped, top_plug]
  cases hold : (ws.release c).target? p link with
  | none => simpa using hkept
  | some old =>
    have hpar : (ws.release c).parent? old = some (p, link) := ((hf.release c).linked ..).mp hold
    have hne : old ≠ c := by
      rintro rfl
      rw [parent?_release_self] at hpar
      cases hpar
    rw [Option.map_some, Option.getD_some, top_release hpar, List.filter_append, hkept]
    simp [hne]

theorem Forest.not_mem_top_of_displaced (hf : ws.Forest)
    (hold : (ws.release c).target? p link = some old) : old ∉ ws.top := by
  intro hmem
  have hpar : (ws.release c).parent? old = some (p, link) := ((hf.release c).linked ..).mp hold
  have hnone : ws.parent? old = none := ((hf.mem_top old).mp hmem).2
  cases hc : ws.parent? c with
  | none => rw [release_of_parent?_none hc, hnone] at hpar; cases hpar
  | some at? =>
    rw [parent?_release hc, hnone] at hpar
    split at hpar <;> cases hpar

/-- The top list after a change that keeps some blocks in their order and puts at most one behind. -/
def Refilled (top top' : List BlockId) : Prop :=
  ∃ (kept : List BlockId) (fresh : Option BlockId), top' = kept ++ fresh.toList ∧
    kept.Sublist top ∧ ∀ id ∈ fresh, id ∉ top

theorem Refilled.of_sublist {top top' : List BlockId} (h : top'.Sublist top) : Refilled top top' :=
  ⟨top', none, (List.append_nil _).symm, h, fun id hid => absurd hid (Option.not_mem_none id)⟩

theorem Refilled.concat {top kept : List BlockId} (h : kept.Sublist top) (hid : id ∉ top) :
    Refilled top (kept ++ [id]) :=
  ⟨kept, some id, rfl, h, fun _ hj => Option.mem_some_iff.mp hj ▸ hid⟩

theorem Forest.refilled_connected (hf : ws.Forest) (registry : Registry) (p : BlockId) (link : Link)
    (c : BlockId) : Refilled ws.top (ws.connected registry p link c).top := by
  have hswapped : Refilled ws.top (ws.swapped p link c).top := by
    rw [hf.top_swapped]
    cases hold : (ws.release c).target? p link with
    | none =>
      rw [Option.toList_none, List.append_nil]
      exact .of_sublist List.filter_sublist
    | some old => exact .concat List.filter_sublist (hf.not_mem_top_of_displaced hold)
  rw [Workspace.connected]
  split
  · next old hold =>
    split
    · rw [Workspace.rejoined]
      split
      · split
        · -- the chain that gave way hangs again, so nothing is new at the top level
          have hgone : (some old).toList.filter (· ≠ old) = [] := by simp
          rw [top_plug, hf.top_swapped, hold, List.filter_append, hgone, List.append_nil]
          exact .of_sublist (List.filter_sublist.trans List.filter_sublist)
        · exact hswapped
      · exact hswapped
    · exact hswapped
  · exact hswapped

/-- A move keeps blocks at the top level in their order, and at most one block comes last. -/
theorem Move.refilled (hf : ws.Forest) (h : Move registry ws ws') : Refilled ws.top ws'.top := by
  cases h with
  | stay => exact .of_sublist (List.Sublist.refl _)
  | add typeId =>
    refine .concat (List.Sublist.refl _) fun hmem => ?_
    exact not_live_iff.mpr (get?_capacity ws) ((hf.mem_top _).mp hmem).1
  | change id f hp =>
    rw [top_update]
    exact .of_sublist (List.Sublist.refl _)
  | release id =>
    cases hpar : ws.parent? id with
    | none =>
      rw [release_of_parent?_none hpar]
      exact .of_sublist (List.Sublist.refl _)
    | some at? =>
      rw [top_release hpar]
      refine .concat (List.Sublist.refl _) fun hmem => ?_
      rw [((hf.mem_top id).mp hmem).2] at hpar
      cases hpar
  | connect p link c hc => exact hf.refilled_connected registry p link c
  | delete id =>
    rw [top_deleted_eq]
    exact .of_sublist List.filter_sublist

/-! ### The order of the top list -/

/-- `a` has hung nowhere since before `b` came to hang nowhere. -/
def RootBefore (registry : Registry) (ops : List Operation) (a b : BlockId) : Prop :=
  ∃ k ≤ ops.length, (∀ j, k ≤ j → j ≤ ops.length → (after registry (ops.take j)).IsRoot a) ∧
    ¬ (after registry (ops.take k)).IsRoot b

namespace RootBefore

theorem asymm (h : RootBefore registry ops a b) : ¬ RootBefore registry ops b a := by
  obtain ⟨k, hk, ha, hb⟩ := h
  rintro ⟨k', hk', hb', ha'⟩
  rcases Nat.le_total k k' with hle | hle
  · exact ha' (ha k' hle hk')
  · exact hb (hb' k hle hk)

theorem concat (h : RootBefore registry ops a b) (ha : (after registry (ops ++ [op])).IsRoot a) :
    RootBefore registry (ops ++ [op]) a b := by
  obtain ⟨k, hk, hroot, hb⟩ := h
  have hlength : (ops ++ [op]).length = ops.length + 1 := List.length_append
  refine ⟨k, by omega, fun j hkj hj => ?_, by rwa [List.take_append_of_le_length hk]⟩
  by_cases hle : j ≤ ops.length
  · rw [List.take_append_of_le_length hle]
    exact hroot j hkj hle
  · rwa [List.take_of_length_le (by omega)]

theorem of_fresh (ha : (after registry ops).IsRoot a)
    (ha' : (after registry (ops ++ [op])).IsRoot a) (hb : ¬ (after registry ops).IsRoot b) :
    RootBefore registry (ops ++ [op]) a b := by
  have hlength : (ops ++ [op]).length = ops.length + 1 := List.length_append
  refine ⟨ops.length, by omega, fun j hkj hj => ?_, by rwa [List.take_left]⟩
  by_cases hle : j ≤ ops.length
  · rwa [Nat.le_antisymm hle hkj, List.take_left]
  · rwa [List.take_of_length_le (by omega)]

end RootBefore

theorem after_concat (registry : Registry) (ops : List Operation) (op : Operation) :
    after registry (ops ++ [op]) = (after registry ops).perform registry op := by
  rw [after, List.foldl_append]
  rfl

/-- The top list is in the order in which its blocks came to the top level. -/
theorem after_top_rootBefore (registry : Registry) (ops : List Operation) :
    (after registry ops).top.Pairwise (RootBefore registry ops) := by
  induction ops using List.reverseRecOn with
  | nil => exact List.Pairwise.nil
  | append_singleton ops op ih =>
    have hf : (after registry ops).Forest := after_forest registry ops
    have hf' : (after registry (ops ++ [op])).Forest := after_forest registry (ops ++ [op])
    have hmove : Move registry (after registry ops) (after registry (ops ++ [op])) := by
      rw [after_concat]
      exact perform_move hf op
    obtain ⟨kept, fresh, htop, hkept, hfresh⟩ := hmove.refilled hf
    have hroot : ∀ id ∈ kept ++ fresh.toList, (after registry (ops ++ [op])).IsRoot id := fun id hid =>
      (hf'.mem_top id).mp (htop ▸ hid)
    rw [htop, List.pairwise_append]
    refine ⟨?_, ?_, fun a ha b hb => ?_⟩
    · refine (ih.sublist hkept).imp_of_mem fun {a b} ha _ hab => ?_
      exact hab.concat (hroot a (List.mem_append_left _ ha))
    · cases fresh with
      | none => exact List.Pairwise.nil
      | some id => exact List.pairwise_singleton _ id
    · exact .of_fresh ((hf.mem_top a).mp (hkept.subset ha)) (hroot a (List.mem_append_left _ ha))
        fun hb' => hfresh b (Option.mem_toList.mp hb) ((hf.mem_top b).mpr hb')

/-! ### The order of stacks -/

/-- Where a block was put, if it was. -/
def placed? (ws : Workspace) (id : BlockId) : Option Position := (ws.get? id).bind Block.position

/-- Where a block stands in the order of stacks: one that was never placed stands at the far end. -/
def place (ws : Workspace) (id : BlockId) : Position := (ws.placed? id).getD .corner

theorem place_of_some {q : Position} (h : ws.placed? id = some q) : ws.place id = q := by
  rw [place, h]
  rfl

theorem place_of_none (h : ws.placed? id = none) : ws.place id = .corner := by
  rw [place, h]
  rfl

theorem stackKey_eq (ws : Workspace) (id : BlockId) :
    ws.stackKey id = ((ws.place id).y, (ws.place id).x) := by
  rw [stackKey, place, placed?]
  cases (ws.get? id).bind Block.position <;> rfl

/-- Stacks are in the order of their places, and at one place in the order of the top list. -/
theorem topBlocks_pairwise {R : BlockId → BlockId → Prop} (htop : ws.top.Nodup)
    (hR : ws.top.Pairwise R) : ws.topBlocks.Pairwise fun a b =>
      (ws.place a).Before (ws.place b) ∨ ws.place a = ws.place b ∧ R a b := by
  have hle : ∀ a b, keyLe (ws.stackKey a) (ws.stackKey b) = true ↔
      (ws.place a).Before (ws.place b) ∨ ws.place a = ws.place b := by
    intro a b
    rw [stackKey_eq, stackKey_eq, Position.keyLe_iff]
  have hsorted : ws.topBlocks.Pairwise fun a b => keyLe (ws.stackKey a) (ws.stackKey b) = true ∧
      (keyLe (ws.stackKey b) (ws.stackKey a) = true → R a b) := by
    refine pairwise_mergeSort_stable (fun a b c hab hbc => ?_) (fun a b => ?_) htop hR
    · exact keyLe_trans hab hbc
    · exact keyLe_total _ _
  refine hsorted.imp fun {a b} hab => ?_
  rcases (hle a b).mp hab.1 with hbefore | heq
  · exact .inl hbefore
  · exact .inr ⟨heq, hab.2 ((hle b a).mpr (.inr heq.symm))⟩

theorem after_topBlocks_pairwise (registry : Registry) (ops : List Operation) :
    let ws := after registry ops
    ws.topBlocks.Pairwise fun a b => (ws.place a).Before (ws.place b) ∨
      ws.place a = ws.place b ∧ RootBefore registry ops a b :=
  topBlocks_pairwise (after_forest registry ops).top_nodup (after_top_rootBefore registry ops)

theorem after_pair_sublist (hab : RootBefore registry ops a b)
    (ha : a ∈ (after registry ops).topBlocks) (hb : b ∈ (after registry ops).topBlocks)
    (hplace : (after registry ops).place a = (after registry ops).place b) :
    [a, b].Sublist (after registry ops).topBlocks := by
  have hne : a ≠ b := by
    rintro rfl
    exact hab.asymm hab
  refine (pair_sublist_or ha hb hne).resolve_right fun hba => ?_
  have horder := after_topBlocks_pairwise registry ops
  rcases List.pairwise_iff_forall_sublist.mp horder hba with hbefore | ⟨-, hback⟩
  · rw [hplace] at hbefore
    exact Position.not_before_self _ hbefore
  · exact hab.asymm hback

/-- The order that stacks should have: placed blocks first, by their places, and then the others by
their numbers. -/
structure Listed (ws : Workspace) (a b : BlockId) : Prop where
  placed : ∀ q, ws.placed? b = some q → ∃ p, ws.placed? a = some p ∧ ¬ q.Before p
  unplaced : ws.placed? a = none → ws.placed? b = none → a.index < b.index

/-- Places decide, save for blocks at the far end. -/
theorem Listed.of_place {R : Prop}
    (h : (ws.place a).Before (ws.place b) ∨ ws.place a = ws.place b ∧ R)
    (hfar : R → ws.placed? a = none →
      ws.placed? b ≠ some .corner ∧ (ws.placed? b = none → a.index < b.index)) : ws.Listed a b := by
  refine ⟨fun q hq => ?_, fun hnone hnone' => ?_⟩
  · rw [place_of_some hq] at h
    cases hp : ws.placed? a with
    | some p =>
      rw [place_of_some hp] at h
      refine ⟨p, rfl, ?_⟩
      rcases h with hbefore | ⟨rfl, -⟩
      · exact hbefore.asymm
      · exact Position.not_before_self p
    | none =>
      rw [place_of_none hp] at h
      rcases h with hbefore | ⟨rfl, hR⟩
      · exact absurd hbefore (Position.not_corner_before q)
      · exact absurd hq (hfar hR hp).1
  · rw [place_of_none hnone, place_of_none hnone'] at h
    rcases h with hbefore | ⟨-, hR⟩
    · exact absurd hbefore (Position.not_before_self _)
    · exact (hfar hR hnone).2 hnone'

/-- After every history the stacks are the live blocks that hang nowhere, each once, in the order of
their places, where a block that was never placed counts as one at the far end of the canvas. Blocks
of one place are in the order in which they came to hang nowhere. So the stacks are listed as they
should be exactly if no block that was never placed came before an older one, or before one that
stands at the far end. -/
theorem after_topBlocks_listed_iff (registry : Registry) (ops : List Operation) :
    let ws := after registry ops
    (ws.topBlocks.Nodup ∧ ∀ id, id ∈ ws.topBlocks ↔ ws.Live id ∧ ws.parent? id = none) ∧
    (ws.topBlocks.Pairwise fun a b => (ws.place a).Before (ws.place b) ∨
      ws.place a = ws.place b ∧ RootBefore registry ops a b) ∧
    (ws.topBlocks.Pairwise ws.Listed ↔
      ∀ a ∈ ws.topBlocks, ∀ b ∈ ws.topBlocks, RootBefore registry ops a b → ws.placed? a = none →
        ws.placed? b ≠ some .corner ∧ (ws.placed? b = none → a.index < b.index)) := by
  intro ws
  have hf : ws.Forest := after_forest registry ops
  have hnodup : ws.topBlocks.Nodup := (List.mergeSort_perm ..).nodup_iff.mpr hf.top_nodup
  have horder := after_topBlocks_pairwise registry ops
  refine ⟨⟨hnodup, fun id => mem_topBlocks.trans (hf.mem_top id)⟩, horder, ?_, ?_⟩
  · intro hlisted a ha b hb hab hnone
    -- two blocks at the far end are listed in the order in which they came
    have hpair : ws.place b = .corner → ws.Listed a b := fun hcorner =>
      List.pairwise_iff_forall_sublist.mp hlisted
        (after_pair_sublist hab ha hb ((place_of_none hnone).trans hcorner.symm))
    constructor
    · intro hb'
      obtain ⟨p, hp, -⟩ := (hpair (place_of_some hb')).placed _ hb'
      rw [hnone] at hp
      cases hp
    · intro hb'
      exact (hpair (place_of_none hb')).unplaced hnone hb'
  · intro hlisted
    exact horder.imp_of_mem fun {a b} ha hb hab => .of_place hab (hlisted a ha b hb)

/-- The older of two blocks is hung behind the other one and taken off again. -/
def returnHistory : List Operation :=
  [.add "python_pass", .add "python_pass", .connectNext ⟨1⟩ ⟨0⟩, .disconnect ⟨0⟩]

theorem topBlocks_returnHistory {registry : Registry}
    (h : registry = ⟨Catalogue.all, Catalogue.distinct_all⟩) :
    let ws := after registry returnHistory
    ws.topBlocks = [⟨1⟩, ⟨0⟩] ∧ ws.placed? ⟨1⟩ = none ∧ ws.placed? ⟨0⟩ = none := by
  subst h
  intro ws
  have htop : ws.top = [⟨1⟩, ⟨0⟩] := by decide +kernel
  have hsorted : ws.topBlocks = ws.top := List.mergeSort_of_pairwise (by decide +kernel)
  exact ⟨hsorted.trans htop, by decide +kernel, by decide +kernel⟩

/-- Blocks that were never placed are not always listed in the order of their creation. -/
theorem after_topBlocks_returned :
    let ws := after (Registry.stock.grown (fun t => t) []) returnHistory
    ¬ ws.topBlocks.Pairwise ws.Listed := by
  intro ws hlisted
  obtain ⟨htop, hone, hzero⟩ := topBlocks_returnHistory (Registry.stock_grown_nil fun t => t)
  rw [htop] at hlisted
  have hpair : ws.Listed ⟨1⟩ ⟨0⟩ := (List.pairwise_cons.mp hlisted).1 ⟨0⟩ (List.mem_singleton_self _)
  exact Nat.not_lt_zero _ (hpair.unplaced hone hzero)

end Workspace

end Blockwright
