import Blockwright.Workspace.Edit
import Mathlib.Data.Finset.Card
import Mathlib.Logic.Relation

/-!
# Workspaces as forests

A workspace keeps its links three times: forward in the slots and the `next` of a block, backward in
the `parent` of the block that hangs there, and once more in the list of blocks at the top level.
`Forest` says that the three agree and that no block is above itself.

All edits of links are made of two changes: `release` takes a block off the one that it hangs on,
and `plug` hangs a block of the top level on another. `Forest.release` and `Forest.plug` say when
these keep a forest a forest. In a forest the blocks above and below a block are finitely many
(`Forest.depth_lt`, `Forest.height_lt`), so the walks up and down its links end.
-/

namespace Blockwright

namespace Block

/-- The block with another note of where it hangs. -/
def withParent (b : Block) (parent : Option (BlockId × Link)) : Block := { b with parent }

@[simp] theorem id_withParent (b : Block) (parent : Option (BlockId × Link)) :
    (b.withParent parent).id = b.id := rfl

@[simp] theorem typeId_withParent (b : Block) (parent : Option (BlockId × Link)) :
    (b.withParent parent).typeId = b.typeId := rfl

@[simp] theorem parent_withParent (b : Block) (parent : Option (BlockId × Link)) :
    (b.withParent parent).parent = parent := rfl

@[simp] theorem target?_withParent (b : Block) (parent : Option (BlockId × Link)) (k : Link) :
    (b.withParent parent).target? k = b.target? k := by cases k <;> rfl

theorem target?_withLink (b : Block) (link k : Link) (c : BlockId) :
    (b.withLink link c).target? k = if link = k then some c else b.target? k := by
  cases link <;> cases k <;> simp [withLink, target?, Dict.get?_insert]

theorem target?_withoutLink (b : Block) (link k : Link) :
    (b.withoutLink link).target? k = if link = k then none else b.target? k := by
  cases link <;> cases k <;> simp [withoutLink, target?, Dict.get?_erase]

@[simp] theorem id_withLink (b : Block) (link : Link) (c : BlockId) :
    (b.withLink link c).id = b.id := by cases link <;> rfl

@[simp] theorem id_withoutLink (b : Block) (link : Link) : (b.withoutLink link).id = b.id := by
  cases link <;> rfl

@[simp] theorem typeId_withLink (b : Block) (link : Link) (c : BlockId) :
    (b.withLink link c).typeId = b.typeId := by cases link <;> rfl

@[simp] theorem typeId_withoutLink (b : Block) (link : Link) :
    (b.withoutLink link).typeId = b.typeId := by cases link <;> rfl

@[simp] theorem parent_withLink (b : Block) (link : Link) (c : BlockId) :
    (b.withLink link c).parent = b.parent := by cases link <;> rfl

@[simp] theorem parent_withoutLink (b : Block) (link : Link) :
    (b.withoutLink link).parent = b.parent := by cases link <;> rfl

end Block

namespace Workspace

variable {ws ws' : Workspace}

/-! ### Views -/

/-- Whether there is a block of that number. -/
def Live (ws : Workspace) (id : BlockId) : Prop := ∃ b, ws.get? id = some b

/-- The block at a link of a live block. -/
def target? (ws : Workspace) (id : BlockId) (link : Link) : Option BlockId :=
  (ws.get? id).bind fun b => b.target? link

/-- The link at which a live block hangs. -/
def parent? (ws : Workspace) (id : BlockId) : Option (BlockId × Link) :=
  (ws.get? id).bind Block.parent

/-- The type of a live block. -/
def type? (ws : Workspace) (id : BlockId) : Option String := (ws.get? id).map Block.typeId

theorem target?_of_get? {id : BlockId} {b : Block} (h : ws.get? id = some b) (link : Link) :
    ws.target? id link = b.target? link := by simp [target?, h]

theorem parent?_of_get? {id : BlockId} {b : Block} (h : ws.get? id = some b) :
    ws.parent? id = b.parent := by simp [parent?, h]

theorem type?_of_get? {id : BlockId} {b : Block} (h : ws.get? id = some b) :
    ws.type? id = some b.typeId := by simp [type?, h]

theorem live_of_target? {id c : BlockId} {link : Link} (h : ws.target? id link = some c) :
    ws.Live id := by
  obtain ⟨b, hb, -⟩ := Option.bind_eq_some_iff.mp h
  exact ⟨b, hb⟩

theorem live_of_parent? {id : BlockId} {at? : BlockId × Link} (h : ws.parent? id = some at?) :
    ws.Live id := by
  obtain ⟨b, hb, -⟩ := Option.bind_eq_some_iff.mp h
  exact ⟨b, hb⟩

theorem not_live_iff {id : BlockId} : ¬ ws.Live id ↔ ws.get? id = none := by
  simp [Live, Option.eq_none_iff_forall_ne_some]

theorem live_iff_type? {id : BlockId} : ws.Live id ↔ ∃ t, ws.type? id = some t := by
  simp [Live, type?]

theorem get_of_get? {id : BlockId} {b : Block} (h : ws.get? id = some b) : ws.get id = .ok b := by
  simp [Workspace.get, h]

theorem Live.lt_capacity {id : BlockId} (h : ws.Live id) : id.index < ws.capacity := by
  obtain ⟨b, hb⟩ := h
  by_contra hge
  have : ws.blocks[id.index]? = none := Array.getElem?_eq_none (Nat.le_of_not_lt hge)
  simp [get?, this] at hb

theorem length_le_capacity {ids : List BlockId} (hnodup : ids.Nodup) (hlive : ∀ a ∈ ids, ws.Live a) :
    ids.length ≤ ws.capacity := by
  have hindex : (ids.map BlockId.index).Nodup :=
    hnodup.map fun a b hab => by cases a; cases b; simpa using hab
  have hsub : (ids.map BlockId.index).toFinset ⊆ Finset.range ws.capacity := by
    intro i hi
    obtain ⟨a, ha, rfl⟩ := List.mem_map.mp (List.mem_toFinset.mp hi)
    exact Finset.mem_range.mpr (hlive a ha).lt_capacity
  have := Finset.card_le_card hsub
  rwa [List.toFinset_card_of_nodup hindex, List.length_map, Finset.card_range] at this

theorem mem_live_iff {b : Block} : b ∈ ws.live ↔ ∃ id, ws.get? id = some b := by
  simp only [live, List.mem_filterMap, Array.mem_toList_iff, Array.mem_iff_getElem?, id, get?]
  constructor
  · rintro ⟨_, ⟨i, hi⟩, rfl⟩
    exact ⟨⟨i⟩, by simp [hi]⟩
  · rintro ⟨j, hj⟩
    exact ⟨some b, ⟨j.index, Option.join_eq_some_iff.mp hj⟩, rfl⟩

theorem mem_topBlocks {id : BlockId} : id ∈ ws.topBlocks ↔ id ∈ ws.top := List.mem_mergeSort

/-! ### The order of keys -/

theorem keyLe_iff {a b : Int64 × Int64} :
    keyLe a b = true ↔ a.1.toInt < b.1.toInt ∨ a.1.toInt = b.1.toInt ∧ a.2.toInt ≤ b.2.toInt := by
  rw [keyLe]
  simp [Int64.lt_iff_toInt_lt, Int64.le_iff_toInt_le, Int64.toInt_inj]

theorem keyLe_trans {a b c : Int64 × Int64} (hab : keyLe a b = true) (hbc : keyLe b c = true) :
    keyLe a c = true := by
  rw [keyLe_iff] at hab hbc ⊢
  omega

theorem keyLe_total (a b : Int64 × Int64) : (keyLe a b || keyLe b a) = true := by
  rw [Bool.or_eq_true, keyLe_iff, keyLe_iff]
  omega

/-! ### Changing a live block -/

/-- The workspace with a block changed, if there is one. -/
def update (ws : Workspace) (id : BlockId) (f : Block → Block) : Workspace :=
  match ws.get? id with
  | some b => ws.put id (f b)
  | none => ws

theorem get?_update (ws : Workspace) (id j : BlockId) (f : Block → Block) :
    (ws.update id f).get? j = if id = j then (ws.get? j).map f else ws.get? j := by
  unfold update
  split
  · next b hb =>
    rw [get?_put _ _ _ _ (Live.lt_capacity ⟨b, hb⟩)]
    split
    · next h => rw [← h, hb]; rfl
    · rfl
  · next hb =>
    split
    · next h => rw [← h, hb]; rfl
    · rfl

@[simp] theorem top_update (ws : Workspace) (id : BlockId) (f : Block → Block) :
    (ws.update id f).top = ws.top := by
  unfold update; split <;> rfl

@[simp] theorem capacity_update (ws : Workspace) (id : BlockId) (f : Block → Block) :
    (ws.update id f).capacity = ws.capacity := by
  unfold update; split <;> simp [capacity_put]

@[simp] theorem live_update (ws : Workspace) (id j : BlockId) (f : Block → Block) :
    (ws.update id f).Live j ↔ ws.Live j := by
  rw [Live, get?_update, Live]
  split <;> simp

theorem target?_update (ws : Workspace) (id j : BlockId) (f : Block → Block) (link : Link) :
    (ws.update id f).target? j link =
      if id = j then (ws.get? j).bind (fun b => (f b).target? link) else ws.target? j link := by
  rw [target?, get?_update]
  split <;> simp [target?, Option.bind_map]

theorem parent?_update (ws : Workspace) (id j : BlockId) (f : Block → Block) :
    (ws.update id f).parent? j =
      if id = j then (ws.get? j).bind (fun b => (f b).parent) else ws.parent? j := by
  rw [parent?, get?_update]
  split <;> simp [parent?, Option.bind_map]

/-- A change that keeps the type. -/
theorem type?_update (ws : Workspace) (id j : BlockId) (f : Block → Block)
    (hf : ∀ b, (f b).typeId = b.typeId) : (ws.update id f).type? j = ws.type? j := by
  rw [type?, get?_update, type?]
  split <;> simp [Function.comp_def, hf]

/-! ### Taking a block off and hanging it up -/

/-- The workspace with a block at the top level. -/
def release (ws : Workspace) (id : BlockId) : Workspace :=
  match ws.parent? id with
  | none => ws
  | some (p, link) =>
    { (ws.update id fun b => b.withParent none).update p fun b => b.withoutLink link with
      top := ws.top ++ [id] }

/-- The workspace in which `child` hangs on `p`. -/
def plug (ws : Workspace) (p : BlockId) (link : Link) (child : BlockId) : Workspace :=
  { (ws.update p fun b => b.withLink link child).update child fun b =>
      b.withParent (some (p, link)) with
    top := ws.top.filter (· ≠ child) }

theorem release_of_parent?_none {id : BlockId} (h : ws.parent? id = none) : ws.release id = ws := by
  simp [release, h]

section Release

variable {id p : BlockId} {link : Link} (h : ws.parent? id = some (p, link))
include h

theorem get?_release (j : BlockId) :
    (ws.release id).get? j =
      ((ws.get? j).map fun b => if id = j then b.withParent none else b).map
        fun b => if p = j then b.withoutLink link else b := by
  have hr : (ws.release id).get? j =
      ((ws.update id fun b => b.withParent none).update p
        fun b => b.withoutLink link).get? j := by
    rw [release, h]; rfl
  rw [hr, get?_update, get?_update]
  by_cases hp : p = j <;> by_cases hi : id = j <;> simp [hp, hi, Function.comp_def]

theorem top_release : (ws.release id).top = ws.top ++ [id] := by rw [release, h]

theorem target?_release (j : BlockId) (k : Link) :
    (ws.release id).target? j k = if (p, link) = (j, k) then none else ws.target? j k := by
  rw [target?, get?_release h, target?]
  cases ws.get? j with
  | none => simp
  | some b =>
    by_cases hp : p = j <;> by_cases hi : id = j <;>
      simp [hp, hi, Block.target?_withoutLink]

theorem parent?_release (j : BlockId) :
    (ws.release id).parent? j = if id = j then none else ws.parent? j := by
  rw [parent?, get?_release h, parent?]
  cases ws.get? j with
  | none => simp
  | some b => by_cases hp : p = j <;> by_cases hi : id = j <;> simp [hp, hi]

end Release

theorem parent?_release_self (ws : Workspace) (id : BlockId) : (ws.release id).parent? id = none := by
  cases hpar : ws.parent? id with
  | none => rw [release_of_parent?_none hpar]; exact hpar
  | some at? => rw [parent?_release hpar, if_pos rfl]

@[simp] theorem live_release (ws : Workspace) (id j : BlockId) :
    (ws.release id).Live j ↔ ws.Live j := by
  cases h : ws.parent? id with
  | none => rw [release_of_parent?_none h]
  | some at? =>
    obtain ⟨p, link⟩ := at?
    rw [Live, get?_release h, Live]
    simp

@[simp] theorem type?_release (ws : Workspace) (id j : BlockId) :
    (ws.release id).type? j = ws.type? j := by
  cases h : ws.parent? id with
  | none => rw [release_of_parent?_none h]
  | some at? =>
    obtain ⟨p, link⟩ := at?
    rw [type?, get?_release h, type?]
    cases ws.get? j with
    | none => rfl
    | some b => by_cases hp : p = j <;> by_cases hi : id = j <;> simp [hp, hi]

section Plug

variable (p c : BlockId) (link : Link)

theorem get?_plug (j : BlockId) :
    (ws.plug p link c).get? j =
      ((ws.get? j).map fun b => if p = j then b.withLink link c else b).map
        fun b => if c = j then b.withParent (some (p, link)) else b := by
  have hr : (ws.plug p link c).get? j =
      ((ws.update p fun b => b.withLink link c).update c
        fun b => b.withParent (some (p, link))).get? j := rfl
  rw [hr, get?_update, get?_update]
  by_cases hp : p = j <;> by_cases hc : c = j <;> simp [hp, hc, Function.comp_def]

theorem top_plug : (ws.plug p link c).top = ws.top.filter (· ≠ c) := rfl

@[simp] theorem live_plug (j : BlockId) : (ws.plug p link c).Live j ↔ ws.Live j := by
  rw [Live, get?_plug, Live]
  simp

@[simp] theorem type?_plug (j : BlockId) : (ws.plug p link c).type? j = ws.type? j := by
  rw [type?, get?_plug, type?]
  cases ws.get? j with
  | none => rfl
  | some b => by_cases hp : p = j <;> by_cases hc : c = j <;> simp [hp, hc]

variable {p c}

theorem target?_plug (hp : ws.Live p) (j : BlockId) (k : Link) :
    (ws.plug p link c).target? j k = if (p, link) = (j, k) then some c else ws.target? j k := by
  rw [target?, get?_plug, target?]
  cases hj : ws.get? j with
  | none =>
    have : p ≠ j := by rintro rfl; exact not_live_iff.mpr hj hp
    simp [this]
  | some b =>
    by_cases hp : p = j <;> by_cases hi : c = j <;>
      simp [hp, hi, Block.target?_withLink]

theorem parent?_plug (hc : ws.Live c) (j : BlockId) :
    (ws.plug p link c).parent? j = if c = j then some (p, link) else ws.parent? j := by
  rw [parent?, get?_plug, parent?]
  cases hj : ws.get? j with
  | none =>
    have : c ≠ j := by rintro rfl; exact not_live_iff.mpr hj hc
    simp [this]
  | some b => by_cases hp : p = j <;> by_cases hi : c = j <;> simp [hp, hi]

end Plug

/-! ### Blocks above others -/

/-- `c` hangs on `p`. -/
def ParentOf (ws : Workspace) (p c : BlockId) : Prop := ∃ link, ws.parent? c = some (p, link)

/-- `a` is an ancestor of `b`. -/
def Above (ws : Workspace) : BlockId → BlockId → Prop := Relation.TransGen ws.ParentOf

/-- `a` is `b` or an ancestor of it. -/
def AboveEq (ws : Workspace) : BlockId → BlockId → Prop := Relation.ReflTransGen ws.ParentOf

theorem ParentOf.above {p c : BlockId} (h : ws.ParentOf p c) : ws.Above p c := .single h

theorem Above.trans {a b c : BlockId} (h : ws.Above a b) (h' : ws.Above b c) : ws.Above a c :=
  Relation.TransGen.trans h h'

theorem Above.live {a b : BlockId} (h : ws.Above a b) : ws.Live b := by
  obtain ⟨p, -, ⟨link, hb⟩⟩ := Relation.TransGen.tail'_iff.mp h
  exact live_of_parent? hb

theorem aboveEq_iff {a b : BlockId} : ws.AboveEq a b ↔ a = b ∨ ws.Above a b := by
  rw [AboveEq, Relation.reflTransGen_iff_eq_or_transGen, eq_comm]; rfl

/-- Fewer links put fewer blocks above others. -/
theorem Above.mono (h : ∀ p c, ws'.ParentOf p c → ws.ParentOf p c) {a b : BlockId}
    (hab : ws'.Above a b) : ws.Above a b := Relation.TransGen.mono h _ _ hab

/-- The parent of a block is the only way up. -/
theorem above_iff_of_parent? {a p c : BlockId} {link : Link} (h : ws.parent? c = some (p, link)) :
    ws.Above a c ↔ ws.AboveEq a p := by
  constructor
  · intro hac
    obtain ⟨q, haq, ⟨k, hk⟩⟩ := Relation.TransGen.tail'_iff.mp hac
    rw [h] at hk
    cases hk
    exact haq
  · exact fun hap => Relation.TransGen.tail' hap ⟨link, h⟩

theorem not_above_of_parent?_none {a c : BlockId} (h : ws.parent? c = none) : ¬ ws.Above a c := by
  intro hac
  obtain ⟨q, -, ⟨k, hk⟩⟩ := Relation.TransGen.tail'_iff.mp hac
  simp [h] at hk

/-- With one more link, from `p` to `c`, a way down either existed before or takes that link. -/
theorem above_of_new_link {p c : BlockId}
    (hnew : ∀ a b, ws'.ParentOf a b → ws.ParentOf a b ∨ (a = p ∧ b = c)) {a b : BlockId}
    (h : ws'.Above a b) : ws.Above a b ∨ (ws.AboveEq a p ∧ ws.AboveEq c b) := by
  induction h with
  | single h =>
    rcases hnew _ _ h with h | ⟨rfl, rfl⟩
    · exact .inl (.single h)
    · exact .inr ⟨.refl, .refl⟩
  | tail _ h ih =>
    rcases hnew _ _ h, ih with ⟨h | ⟨rfl, rfl⟩, ih | ⟨hap, hcb⟩⟩
    · exact .inl (.tail ih h)
    · exact .inr ⟨hap, hcb.tail h⟩
    · exact .inr ⟨ih.to_reflTransGen, .refl⟩
    · exact .inr ⟨hap, .refl⟩

/-! ### Forests -/

/-- The links of a workspace agree with each other and lead in no circle. -/
structure Forest (ws : Workspace) : Prop where
  /-- A block knows its number. -/
  numbered : ∀ id b, ws.get? id = some b → b.id = id
  /-- A link leads to a block if and only if that block hangs at that link. A block that has a link
  or hangs at one is live. -/
  linked : ∀ p link c, ws.target? p link = some c ↔ ws.parent? c = some (p, link)
  /-- No block is above itself. -/
  acyclic : ∀ id, ¬ ws.Above id id
  /-- The top list holds the live blocks that hang nowhere. -/
  mem_top : ∀ id, id ∈ ws.top ↔ ws.Live id ∧ ws.parent? id = none
  /-- The top list holds no block twice. -/
  top_nodup : ws.top.Nodup

theorem forest_empty : Forest empty := by
  have hget : ∀ id, empty.get? id = none := fun id => by simp [get?, empty]
  have hpar : ∀ id, empty.parent? id = none := fun id => by simp [parent?, hget]
  refine ⟨fun id b h => by simp [hget] at h, fun p link c => ?_, fun id h => ?_, fun id => ?_, ?_⟩
  · simp [hpar, target?, hget]
  · exact not_above_of_parent?_none (hpar id) h
  · simp [Live, hget, show empty.top = [] from rfl]
  · exact List.nodup_nil

namespace Forest

variable {id p c : BlockId} {link : Link}

theorem live_target (hf : ws.Forest) (h : ws.target? p link = some c) : ws.Live c :=
  live_of_parent? ((hf.linked p link c).mp h)

theorem live_parent (hf : ws.Forest) (h : ws.parent? c = some (p, link)) : ws.Live p :=
  live_of_target? ((hf.linked p link c).mpr h)

theorem above_target (hf : ws.Forest) (h : ws.target? p link = some c) : ws.Above p c :=
  ParentOf.above ⟨link, (hf.linked p link c).mp h⟩

theorem live_above (hf : ws.Forest) {a b : BlockId} (h : ws.Above a b) : ws.Live a := by
  obtain ⟨q, ⟨k, hk⟩, -⟩ := Relation.TransGen.head'_iff.mp h
  exact hf.live_parent hk

/-- A change that keeps the views keeps the forest. -/
theorem of_views (hf : ws.Forest) (hnum : ∀ id b, ws'.get? id = some b → b.id = id)
    (hlive : ∀ id, ws'.Live id ↔ ws.Live id) (htarget : ∀ p k, ws'.target? p k = ws.target? p k)
    (hparent : ∀ c, ws'.parent? c = ws.parent? c) (htop : ws'.top = ws.top) : ws'.Forest := by
  refine ⟨hnum, fun p k c => ?_, fun id h => ?_, fun id => ?_, ?_⟩
  · rw [htarget, hparent]; exact hf.linked p k c
  · exact hf.acyclic id (h.mono fun q d ⟨k, hk⟩ => ⟨k, by rw [← hparent]; exact hk⟩)
  · rw [htop, hlive, hparent]; exact hf.mem_top id
  · rw [htop]; exact hf.top_nodup

/-- A change of fields, mode, place or type. -/
theorem update (hf : ws.Forest) {f : Block → Block} (hid : ∀ b, (f b).id = b.id)
    (htarget : ∀ b k, (f b).target? k = b.target? k) (hparent : ∀ b, (f b).parent = b.parent) :
    (ws.update id f).Forest := by
  refine hf.of_views (fun j b h => ?_) (live_update ws id · f) (fun q k => ?_) (fun d => ?_)
    (top_update ws id f)
  · rw [get?_update] at h
    split at h
    · obtain ⟨b, hb, rfl⟩ := Option.map_eq_some_iff.mp h
      rw [hid]; exact hf.numbered j b hb
    · exact hf.numbered j b h
  · rw [target?_update]
    split
    · simp only [htarget]; rfl
    · rfl
  · rw [parent?_update]
    split
    · simp only [hparent]; rfl
    · rfl

theorem numbered_release (hf : ws.Forest) (id : BlockId) :
    ∀ j b, (ws.release id).get? j = some b → b.id = j := by
  intro j b h
  cases hpar : ws.parent? id with
  | none => rw [release_of_parent?_none hpar] at h; exact hf.numbered j b h
  | some at? =>
    obtain ⟨p, link⟩ := at?
    rw [get?_release hpar] at h
    simp only [Option.map_map, Option.map_eq_some_iff, Function.comp_apply] at h
    obtain ⟨b, hb, rfl⟩ := h
    rw [← hf.numbered j b hb]
    split <;> split <;> simp

theorem numbered_plug (hf : ws.Forest) (p c : BlockId) (link : Link) :
    ∀ j b, (ws.plug p link c).get? j = some b → b.id = j := by
  intro j b h
  rw [get?_plug] at h
  simp only [Option.map_map, Option.map_eq_some_iff, Function.comp_apply] at h
  obtain ⟨b, hb, rfl⟩ := h
  rw [← hf.numbered j b hb]
  split <;> split <;> simp

/-- Taking a block off the one that it hangs on. -/
theorem release (hf : ws.Forest) (id : BlockId) : (ws.release id).Forest := by
  cases h : ws.parent? id with
  | none => rw [release_of_parent?_none h]; exact hf
  | some at? =>
    obtain ⟨p, link⟩ := at?
    have hlive : ws.Live id := live_of_parent? h
    have hnot : id ∉ ws.top := fun hm => by simp [(hf.mem_top id).mp hm] at h
    refine ⟨hf.numbered_release id, fun q k c => ?_, fun j hj => ?_, fun j => ?_, ?_⟩
    · rw [target?_release h, parent?_release h]
      have hl := hf.linked q k c
      by_cases hid : id = c
      · subst hid
        rw [h] at hl
        by_cases hq : (p, link) = (q, k)
        · simp [hq]
        · simp only [hq, if_false, if_true, hl, Option.some.injEq]; simp
      · by_cases hq : (p, link) = (q, k)
        · have : ws.parent? c ≠ some (q, k) := fun hc => by
            rw [← hl, ← (Prod.mk.inj hq).1, ← (Prod.mk.inj hq).2, (hf.linked p link id).mpr h] at hc
            exact hid (Option.some.inj hc)
          simp [hq, hid, this]
        · simp [hq, hid, hl]
    · refine hf.acyclic j (hj.mono fun q c ⟨k, hk⟩ => ⟨k, ?_⟩)
      rw [parent?_release h] at hk
      split at hk
      · simp at hk
      · exact hk
    · rw [top_release h, live_release, parent?_release h, List.mem_append, List.mem_singleton,
        hf.mem_top]
      by_cases hid : id = j
      · subst hid; simp [hlive]
      · simp [hid, Ne.symm hid]
    · rw [top_release h]
      exact List.concat_eq_append ▸ hf.top_nodup.concat hnot

/-- Hanging a block of the top level at a free link of a block that is not below it. -/
theorem plug (hf : ws.Forest) (hp : ws.Live p) (hc : ws.Live c) (hfree : ws.target? p link = none)
    (htop : ws.parent? c = none) (hcp : ¬ ws.AboveEq c p) : (ws.plug p link c).Forest := by
  refine ⟨hf.numbered_plug p c link, fun q k d => ?_, fun j hj => ?_, fun j => ?_, ?_⟩
  · rw [target?_plug link hp, parent?_plug link hc]
    have hl := hf.linked q k d
    by_cases hd : c = d
    · subst hd
      rw [htop] at hl
      by_cases hq : (p, link) = (q, k)
      · simp [hq]
      · simp only [hq, if_false, if_true, hl, Option.some.injEq]; simp
    · by_cases hq : (p, link) = (q, k)
      · have : ws.parent? d ≠ some (q, k) := fun hpar => by
          rw [← hl, ← (Prod.mk.inj hq).1, ← (Prod.mk.inj hq).2, hfree] at hpar
          simp at hpar
        simp [hq, hd, this]
      · simp [hq, hd, hl]
  · have hnew : ∀ a b, (ws.plug p link c).ParentOf a b → ws.ParentOf a b ∨ (a = p ∧ b = c) := by
      rintro a b ⟨k, hk⟩
      rw [parent?_plug link hc] at hk
      split at hk
      · next hcb => cases hk; exact .inr ⟨rfl, hcb.symm⟩
      · exact .inl ⟨k, hk⟩
    rcases above_of_new_link hnew hj with h | ⟨hjp, hcj⟩
    · exact hf.acyclic j h
    · exact hcp (Relation.ReflTransGen.trans hcj hjp)
  · rw [top_plug, live_plug, parent?_plug link hc, List.mem_filter, hf.mem_top]
    by_cases hj : c = j
    · simp [hj]
    · simp [hj, Ne.symm hj]
  · rw [top_plug]; exact hf.top_nodup.filter _

end Forest

/-! ### Depth and height -/

open Classical in
/-- How many numbers below `n` have a property. -/
noncomputable def countBelow (n : Nat) (P : Nat → Prop) : Nat := ((Finset.range n).filter P).card

theorem countBelow_le (n : Nat) (P : Nat → Prop) : countBelow n P ≤ n := by
  classical
  exact (Finset.card_filter_le _ _).trans_eq (Finset.card_range n)

/-- A property that fewer numbers have. -/
theorem countBelow_lt {n j : Nat} {P Q : Nat → Prop} (hPQ : ∀ i, P i → Q i) (hj : j < n) (hQ : Q j)
    (hP : ¬ P j) : countBelow n P < countBelow n Q := by
  classical
  refine Finset.card_lt_card ((Finset.ssubset_iff_of_subset fun i hi => ?_).mpr ⟨j, ?_, ?_⟩)
  · rw [Finset.mem_filter] at hi ⊢
    exact ⟨hi.1, hPQ i hi.2⟩
  · exact Finset.mem_filter.mpr ⟨Finset.mem_range.mpr hj, hQ⟩
  · exact fun h => hP (Finset.mem_filter.mp h).2

/-- The number of blocks above a block. -/
noncomputable def depth (ws : Workspace) (id : BlockId) : Nat :=
  countBelow ws.capacity fun i => ws.Above ⟨i⟩ id

/-- The number of blocks below a block. -/
noncomputable def height (ws : Workspace) (id : BlockId) : Nat :=
  countBelow ws.capacity fun i => ws.Above id ⟨i⟩

namespace Forest

variable {a b id : BlockId}

theorem depth_lt_of_above (hf : ws.Forest) (h : ws.Above a b) : ws.depth a < ws.depth b :=
  countBelow_lt (fun _ hi => hi.trans h) (hf.live_above h).lt_capacity h (hf.acyclic a)

theorem height_lt_of_above (hf : ws.Forest) (h : ws.Above a b) : ws.height b < ws.height a :=
  countBelow_lt (fun _ hi => h.trans hi) h.live.lt_capacity h (hf.acyclic b)

theorem depth_lt (hf : ws.Forest) (h : ws.Live id) : ws.depth id < ws.capacity :=
  (countBelow_lt (Q := fun _ => True) (fun _ _ => trivial) h.lt_capacity trivial
    (hf.acyclic id)).trans_le (countBelow_le _ _)

theorem height_lt (hf : ws.Forest) (h : ws.Live id) : ws.height id < ws.capacity :=
  (countBelow_lt (Q := fun _ => True) (fun _ _ => trivial) h.lt_capacity trivial
    (hf.acyclic id)).trans_le (countBelow_le _ _)

end Forest

end Workspace

end Blockwright
