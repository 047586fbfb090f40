import Blockwright.Proofs.Edits

/-!
# Deleting blocks

`prune` drops the blocks that links lead to from the pending ones, and no others (`get?_prune`): its
fuel is enough for every workspace. In a forest these are the blocks below the deleted one, so that
what stays is a forest again (`Forest.delete`).
-/

namespace Blockwright

namespace Dict

variable {α : Type}

theorem lookup_eq_some_iff {key : String} {value : α} {entries : List (String × α)}
    (h : Ascending entries) : lookup key entries = some value ↔ (key, value) ∈ entries := by
  induction entries with
  | nil => simp [lookup]
  | cons e rest ih =>
    obtain ⟨he, hrest⟩ := List.pairwise_cons.mp h
    rw [lookup, List.mem_cons]
    split
    · next hkey =>
      subst hkey
      constructor
      · intro hv; cases hv; exact .inl rfl
      · rintro (hv | hv)
        · rw [← hv]
        · exact absurd (he _ hv) (String.lt_irrefl _)
    · next hkey =>
      rw [ih hrest]
      refine ⟨.inr, ?_⟩
      rintro (rfl | hv)
      · exact absurd rfl hkey
      · exact hv

theorem get?_eq_some_iff (d : Dict α) {key : String} {value : α} :
    d.get? key = some value ↔ (key, value) ∈ d.entries := lookup_eq_some_iff d.ascending

theorem mem_values_iff (d : Dict α) {value : α} :
    value ∈ d.values ↔ ∃ key, d.get? key = some value := by
  simp [values, get?_eq_some_iff]

end Dict

theorem Block.mem_children_iff (b : Block) (c : BlockId) :
    c ∈ b.children ↔ ∃ link, b.target? link = some c := by
  rw [children, List.mem_append, Dict.mem_values_iff, Option.mem_toList]
  constructor
  · rintro (⟨slot, h⟩ | h)
    · exact ⟨.input slot, h⟩
    · exact ⟨.next, h⟩
  · rintro ⟨slot | _, h⟩
    · exact .inl ⟨slot, h⟩
    · exact .inr h

namespace Workspace

variable {ws ws' : Workspace} {id j : BlockId}

/-- A link of `p` leads to `c`. -/
def LinkTo (ws : Workspace) (p c : BlockId) : Prop := ∃ link, ws.target? p link = some c

/-- Links lead from `a` to `b`. -/
def Reaches (ws : Workspace) : BlockId → BlockId → Prop := Relation.ReflTransGen ws.LinkTo

theorem linkTo_iff {b : Block} (hb : ws.get? id = some b) : ws.LinkTo id j ↔ j ∈ b.children := by
  simp [LinkTo, target?_of_get? hb, Block.mem_children_iff]

theorem linkTo_drop_iff : (ws.drop id).LinkTo j c ↔ id ≠ j ∧ ws.LinkTo j c := by
  simp only [LinkTo, target?, get?_drop]
  by_cases h : id = j <;> simp [h]

theorem Reaches.of_not_live (hid : ¬ ws.Live id) (h : ws.Reaches id j) : id = j := by
  rcases Relation.ReflTransGen.cases_head h with h | ⟨c, ⟨link, hc⟩, -⟩
  · exact h
  · exact absurd (live_of_target? hc) hid

/-- Without a block, links lead to the other blocks that they led to, some of them from the blocks
that hung on it. -/
theorem reaches_drop_iff {b : Block} (hb : ws.get? id = some b) (pending : List BlockId) :
    (∃ a ∈ id :: pending, ws.Reaches a j) ↔
      j = id ∨ ∃ a ∈ b.children ++ pending, (ws.drop id).Reaches a j := by
  have hdown : ∀ a, ws.Reaches a j →
      j = id ∨ (ws.drop id).Reaches a j ∨ ∃ c ∈ b.children, (ws.drop id).Reaches c j := by
    intro a h
    induction h using Relation.ReflTransGen.head_induction_on with
    | refl => exact .inr (.inl .refl)
    | @head a c hac _ ih =>
      rcases ih with h | h | h
      · exact .inl h
      · by_cases hid : id = a
        · subst hid
          exact .inr (.inr ⟨_, (linkTo_iff hb).mp hac, h⟩)
        · exact .inr (.inl (.head (linkTo_drop_iff.mpr ⟨hid, hac⟩) h))
      · exact .inr (.inr h)
  have hup : ∀ a, (ws.drop id).Reaches a j → ws.Reaches a j := fun a h =>
    Relation.ReflTransGen.mono (fun _ _ h => (linkTo_drop_iff.mp h).2) _ _ h
  constructor
  · rintro ⟨a, ha, h⟩
    rcases hdown a h with h | h | ⟨c, hc, h⟩
    · exact .inl h
    · rcases List.mem_cons.mp ha with rfl | ha
      · rcases Relation.ReflTransGen.cases_head h with h | ⟨c, hac, -⟩
        · exact .inl h.symm
        · exact absurd rfl (linkTo_drop_iff.mp hac).1
      · exact .inr ⟨a, List.mem_append_right _ ha, h⟩
    · exact .inr ⟨c, List.mem_append_left _ hc, h⟩
  · rintro (rfl | ⟨a, ha, h⟩)
    · exact ⟨j, List.mem_cons_self, .refl⟩
    · rcases List.mem_append.mp ha with ha | ha
      · exact ⟨id, List.mem_cons_self, .head ((linkTo_iff hb).mpr ha) (hup a h)⟩
      · exact ⟨a, List.mem_cons_of_mem _ ha, hup a h⟩

/-! ### Pruning -/

theorem length_flatMap_set_none {b : Block} {l : List (Option Block)} {i : Nat}
    (h : l[i]? = some (some b)) :
    (((l.set i none).filterMap fun o => o).flatMap Block.children).length + b.children.length =
      ((l.filterMap fun o => o).flatMap Block.children).length := by
  induction l generalizing i with
  | nil => cases h
  | cons o l ih =>
    cases i with
    | zero =>
      cases h
      simp only [List.set_cons_zero, List.filterMap_cons, List.flatMap_cons, List.length_append]
      omega
    | succ i =>
      have hrest := ih (i := i) h
      cases o with
      | none => simpa only [List.set_cons_succ, List.filterMap_cons] using hrest
      | some a =>
        simp only [List.set_cons_succ, List.filterMap_cons, List.flatMap_cons, List.length_append]
        omega

theorem linkCount_drop {b : Block} (hb : ws.get? id = some b) :
    Edit.linkCount (ws.drop id) + b.children.length = Edit.linkCount ws := by
  have hget : ws.blocks.toList[id.index]? = some (some b) := by
    rw [Array.getElem?_toList]
    exact Option.join_eq_some_iff.mp hb
  have hdrop : (ws.drop id).blocks.toList = ws.blocks.toList.set id.index none := by simp [drop]
  have hcount := length_flatMap_set_none hget
  rw [← hdrop] at hcount
  exact hcount

theorem top_prune (fuel : Nat) (ws : Workspace) (pending : List BlockId) :
    (Edit.prune ws fuel pending).top = ws.top := by
  fun_induction Edit.prune ws fuel pending with
  | case1 => rfl
  | case2 => rfl
  | case3 ws fuel id pending hb ih => exact ih
  | case4 ws fuel id pending b hb ih => exact ih

open Classical in
/-- Pruning drops the blocks that links lead to from the pending ones. -/
theorem get?_prune {fuel : Nat} {pending : List BlockId}
    (hfuel : Edit.linkCount ws + pending.length ≤ fuel) (j : BlockId) :
    (Edit.prune ws fuel pending).get? j =
      if ∃ a ∈ pending, ws.Reaches a j then none else ws.get? j := by
  fun_induction Edit.prune ws fuel pending with
  | case1 ws pending =>
    have : pending = [] := List.length_eq_zero_iff.mp (by omega)
    simp [this]
  | case2 => simp
  | case3 ws fuel id pending hb ih =>
    rw [ih (by simp only [List.length_cons] at hfuel; omega)]
    have hid : ¬ ws.Live id := not_live_iff.mpr hb
    by_cases h : ∃ a ∈ pending, ws.Reaches a j
    · obtain ⟨a, ha, haj⟩ := h
      rw [if_pos ⟨a, ha, haj⟩, if_pos ⟨a, List.mem_cons_of_mem _ ha, haj⟩]
    · rw [if_neg h]
      split
      · next h' =>
        obtain ⟨a, ha, haj⟩ := h'
        rcases List.mem_cons.mp ha with rfl | ha
        · rw [← haj.of_not_live hid, hb]
        · exact absurd ⟨a, ha, haj⟩ h
      · rfl
  | case4 ws fuel id pending b hb ih =>
    have hcount := linkCount_drop hb
    simp only [List.length_cons] at hfuel
    rw [ih (by simp only [List.length_append]; omega), get?_drop]
    simp only [reaches_drop_iff hb pending (j := j)]
    by_cases hj : j = id
    · simp [hj]
    · simp [hj, Ne.symm hj]

/-! ### Deletion -/

/-- The workspace without a block and all that hangs on it. -/
def deleted (ws : Workspace) (id : BlockId) : Workspace :=
  let freed := ws.release id
  let freed := { freed with top := freed.top.filter (· ≠ id) }
  Edit.prune freed (Edit.linkCount freed + 1) [id]

theorem Forest.linkTo_iff (hf : ws.Forest) {p c : BlockId} : ws.LinkTo p c ↔ ws.ParentOf p c :=
  exists_congr fun link => hf.linked p link c

theorem Forest.reaches_iff (hf : ws.Forest) {a b : BlockId} : ws.Reaches a b ↔ ws.AboveEq a b :=
  ⟨fun h => Relation.ReflTransGen.mono (fun _ _ h => hf.linkTo_iff.mp h) _ _ h,
    fun h => Relation.ReflTransGen.mono (fun _ _ h => hf.linkTo_iff.mpr h) _ _ h⟩

theorem top_deleted (ws : Workspace) (id : BlockId) :
    (ws.deleted id).top = (ws.release id).top.filter (· ≠ id) := top_prune ..

theorem top_deleted_eq (ws : Workspace) (id : BlockId) :
    (ws.deleted id).top = ws.top.filter (· ≠ id) := by
  rw [top_deleted]
  cases hpar : ws.parent? id with
  | none => rw [release_of_parent?_none hpar]
  | some at? => rw [top_release hpar, List.filter_append]; simp

open Classical in
theorem Forest.get?_deleted (hf : ws.Forest) (id j : BlockId) :
    (ws.deleted id).get? j =
      if (ws.release id).AboveEq id j then none else (ws.release id).get? j := by
  rw [deleted, get?_prune (by simp)]
  simp only [List.mem_singleton, exists_eq_left]
  exact if_congr (hf.release id).reaches_iff rfl rfl

/-- Cutting off a block of the top level with all that is below it. -/
theorem Forest.cut (hf : ws.Forest) (hid : ws.parent? id = none)
    (hgone : ∀ j, ws.AboveEq id j → ws'.get? j = none)
    (hkept : ∀ j, ¬ ws.AboveEq id j → ws'.get? j = ws.get? j)
    (htop : ws'.top = ws.top.filter (· ≠ id)) : ws'.Forest := by
  classical
  have hdown : ∀ p k c, ws.target? p k = some c → (ws.AboveEq id p ↔ ws.AboveEq id c) := by
    intro p k c h
    have hpar := (hf.linked p k c).mp h
    have hne : id ≠ c := by rintro rfl; simp [hid] at hpar
    rw [aboveEq_iff (b := c), ← above_iff_of_parent? hpar]
    simp [hne]
  have htarget : ∀ p k c, ws'.target? p k = some c ↔ ws.target? p k = some c ∧ ¬ ws.AboveEq id c := by
    intro p k c
    by_cases h : ws.AboveEq id p
    · simp only [target?, hgone p h, Option.bind_none, reduceCtorEq, false_iff, not_and, not_not]
      exact fun ht => (hdown p k c ht).mp h
    · rw [target?, hkept p h, ← target?]
      exact ⟨fun ht => ⟨ht, fun hc => h ((hdown p k c ht).mpr hc)⟩, And.left⟩
  have hparent : ∀ c, ws'.parent? c = if ws.AboveEq id c then none else ws.parent? c := by
    intro c
    split
    · next h => simp [parent?, hgone c h]
    · next h => simp [parent?, hkept c h]
  refine ⟨fun j b hb => ?_, fun p k c => ?_, fun j hj => ?_, fun j => ?_, ?_⟩
  · by_cases h : ws.AboveEq id j
    · simp [hgone j h] at hb
    · exact hf.numbered j b (hkept j h ▸ hb)
  · rw [htarget, hparent, hf.linked]
    split
    · next h => simp [h]
    · next h => simp [h]
  · refine hf.acyclic j (hj.mono ?_)
    rintro p c ⟨k, hk⟩
    refine ⟨k, ?_⟩
    rw [hparent] at hk
    split at hk
    · simp at hk
    · exact hk
  · rw [htop, List.mem_filter, hf.mem_top, hparent]
    by_cases h : ws.AboveEq id j
    · have : ¬ ws'.Live j := not_live_iff.mpr (hgone j h)
      rcases aboveEq_iff.mp h with rfl | habove
      · simp [this]
      · have : ws.parent? j ≠ none := fun hn => not_above_of_parent?_none hn habove
        simp [*]
    · have hne : j ≠ id := by rintro rfl; exact h .refl
      simp [Live, hkept j h, h, hne]
  · rw [htop]; exact hf.top_nodup.filter _

theorem Forest.deleted (hf : ws.Forest) (id : BlockId) : (ws.deleted id).Forest := by
  classical
  exact (hf.release id).cut (parent?_release_self ws id)
    (fun j h => by rw [hf.get?_deleted, if_pos h]) (fun j h => by rw [hf.get?_deleted, if_neg h])
    (top_deleted ws id)

end Workspace

namespace Edit

open Workspace

theorem apply_delete {ws : Workspace} {id : BlockId} (hf : ws.Forest) (h : ws.Live id) :
    (delete id).apply ws = (.ok (), ws.deleted id) :=
  (apply_bind_ok (apply_detach hf h) _).trans rfl

theorem apply_delete_missing {ws : Workspace} {id : BlockId} (h : ¬ ws.Live id) :
    (delete id).apply ws = (.error (.missing id), ws) := apply_bind_error (apply_detach_missing h) _

end Edit

end Blockwright
