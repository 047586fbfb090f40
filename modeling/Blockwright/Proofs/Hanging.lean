import Blockwright.Proofs.Connections
import Blockwright.Proofs.History
import Blockwright.Proofs.Preorder
import Blockwright.Workspace.Document

/-!
# Which documents load as forests

Loading hangs blocks up without a look at what hangs there already. Every document that loads gives
a workspace that is `Hung`: parents agree with the links that are there, but where two elements fill
one link of a block, the later one has it and the earlier block hangs at a link that does not lead
to it. `Settles` states what loading the element of a block adds to such a workspace, and when all
links lead to their blocks after it. Main statement: `Workspace.load_forest_iff`, by which a document
loads as a forest just if none of its blocks has two elements for one link.
-/

namespace Blockwright

open Markup

/-! ### Elements that fill links -/

namespace Markup.Node

/-- Of the elements in one for a link the first block counts, or the first shadow block if there is
no other. -/
def nested? (children : List Node) : Option Node :=
  (children.find? (·.isNamed "block")).or (children.find? (·.isNamed "shadow"))

/-- The link that an element fills, and the element of the block that it hangs there. -/
def filled? : Node → Option (Link × Node)
  | .element tag attributes children =>
    if tag = "value" ∨ tag = "statement" then
      (attributes.get? "name").bind fun name => (nested? children).map fun n => (.input name, n)
    else if tag = "next" then (nested? children).map fun n => (.next, n)
    else none
  | _ => none

/-- No link of the block of an element is filled twice, nor one of the blocks below it. -/
inductive Single : Node → Prop
  | element {tag : String} {attributes : Dict String} {children : List Node}
      (hlinks : ((children.filterMap filled?).map Prod.fst).Nodup)
      (hnested : ∀ x ∈ children.filterMap filled?, Single x.2) :
      Single (.element tag attributes children)

/-- The blocks of a document fill no link twice. -/
def SingleStacks : Node → Prop
  | .element _ _ children =>
    ∀ n ∈ children, (n.isNamed "block" || n.isNamed "shadow") = true → n.Single
  | _ => True

theorem single_element_iff {tag : String} {attributes : Dict String} {children : List Node} :
    Single (.element tag attributes children) ↔
      ((children.filterMap filled?).map Prod.fst).Nodup ∧
        ∀ x ∈ children.filterMap filled?, Single x.2 := by
  constructor
  · rintro ⟨hlinks, hnested⟩
    exact ⟨hlinks, hnested⟩
  · exact fun h => .element h.1 h.2

theorem sizeOf_lt_of_filled? {n m : Node} {link : Link} (h : n.filled? = some (link, m)) :
    sizeOf m < sizeOf n := by
  cases n with
  | text t => cases h
  | cdata t => cases h
  | element tag attributes children =>
    have hmem : m ∈ children := by
      have hnested : nested? children = some m := by
        rw [filled?] at h
        split at h
        · obtain ⟨name, -, h⟩ := Option.bind_eq_some_iff.mp h
          obtain ⟨_, hn, heq⟩ := Option.map_eq_some_iff.mp h
          cases heq
          exact hn
        · split at h
          · obtain ⟨_, hn, heq⟩ := Option.map_eq_some_iff.mp h
            cases heq
            exact hn
          · cases h
      rcases Option.or_eq_some_iff.mp hnested with hfind | ⟨-, hfind⟩
      · exact List.mem_of_find?_eq_some hfind
      · exact List.mem_of_find?_eq_some hfind
    have hlt := List.sizeOf_lt_of_mem hmem
    simp only [element.sizeOf_spec]
    omega

end Markup.Node

namespace Workspace

theorem loadFirst_eq (tag : String) (ns : List Node) :
    loadFirst tag ns = (ns.find? (·.isNamed tag)).map loadBlock := by
  induction ns with
  | nil => rfl
  | cons n ns ih =>
    rw [loadFirst, List.find?_cons]
    cases n.isNamed tag with
    | true => rfl
    | false => exact ih

theorem loadNested_eq (ns : List Node) :
    (loadFirst "block" ns <|> loadFirst "shadow" ns) = (Node.nested? ns).map loadBlock := by
  rw [loadFirst_eq, loadFirst_eq, Node.nested?]
  cases ns.find? (·.isNamed "block") <;> rfl

variable {id : BlockId} {n m : Node} {ns : List Node} {link : Link}

theorem loadParts_filled (h : n.filled? = some (link, m)) :
    loadParts id (n :: ns) =
      (hang id link (some (loadBlock m)) >>= fun _ => loadParts id ns) := by
  cases n with
  | text t => cases h
  | cdata t => cases h
  | element tag attributes children =>
    rw [Node.filled?] at h
    rw [loadParts, loadNested_eq]
    split at h
    · next htag =>
      obtain ⟨name, hname, h⟩ := Option.bind_eq_some_iff.mp h
      obtain ⟨_, hm, heq⟩ := Option.map_eq_some_iff.mp h
      cases heq
      have hmutation : tag ≠ "mutation" := by rcases htag with rfl | rfl <;> decide
      have hfield : tag ≠ "field" := by rcases htag with rfl | rfl <;> decide
      rw [if_neg hmutation, if_neg hfield, if_pos htag, hname, hm]
      rfl
    · next htag =>
      split at h
      · next hnext =>
        subst hnext
        obtain ⟨_, hm, heq⟩ := Option.map_eq_some_iff.mp h
        cases heq
        rw [if_neg (by decide), if_neg (by decide), if_neg htag, if_pos rfl, hm]
        rfl
      · cases h

theorem payload_setMode (mode : ArgMode) : Payload fun b => { b with mode } :=
  ⟨fun _ => rfl, fun _ => rfl, fun _ link => by cases link <;> rfl, fun _ => rfl⟩

/-- An element that fills no link changes a field or the mode of the block, or nothing. -/
theorem loadParts_plain (h : n.filled? = none) :
    loadParts id (n :: ns) = loadParts id ns ∨ ∃ f, Payload f ∧
      loadParts id (n :: ns) = (Edit.alter id f >>= fun _ => loadParts id ns) := by
  cases n with
  | text t => exact .inl (by rw [loadParts]; simp)
  | cdata t => exact .inl (by rw [loadParts]; simp)
  | element tag attributes children =>
    rw [Node.filled?] at h
    rw [loadParts, loadNested_eq]
    split
    · split
      · exact .inr ⟨_, payload_setMode .expanded, rfl⟩
      · exact .inl rfl
    · split
      · cases attributes.get? "name" with
        | none => exact .inl rfl
        | some name => exact .inr ⟨_, payload_setField name _, rfl⟩
      · split
        · next htag =>
          rw [if_pos htag] at h
          cases hname : attributes.get? "name" with
          | none => exact .inl rfl
          | some name =>
            rw [hname] at h
            rw [Option.map_eq_none_iff.mp h]
            exact .inl rfl
        · next htag =>
          rw [if_neg htag] at h
          split
          · next hnext =>
            rw [if_pos hnext] at h
            rw [Option.map_eq_none_iff.mp h]
            exact .inl rfl
          · exact .inl rfl

/-! ### Workspaces that hang together -/

variable {ws ws' : Workspace} {k : Nat} {c p : BlockId}

/-- Every block is at the top level or hangs on an older one. A link leads to the youngest of the
blocks that hang at it. -/
structure Hung (ws : Workspace) : Prop where
  numbered : ∀ id b, ws.get? id = some b → b.id = id
  linked : ∀ p link c, ws.target? p link = some c → ws.parent? c = some (p, link)
  filled : ∀ p link c, ws.parent? c = some (p, link) →
    ∃ d, ws.target? p link = some d ∧ c.index ≤ d.index
  older : ∀ p link c, ws.parent? c = some (p, link) → p.index < c.index
  mem_top : ∀ id, id ∈ ws.top ↔ ws.Live id ∧ ws.parent? id = none
  top_nodup : ws.top.Nodup

/-- The links lead to all blocks from number `k` on that hang somewhere. -/
def Tied (k : Nat) (ws : Workspace) : Prop :=
  ∀ p link c, k ≤ c.index → ws.parent? c = some (p, link) → ws.target? p link = some c

theorem Hung.acyclic (h : ws.Hung) (id : BlockId) : ¬ ws.Above id id := by
  have hlt : ∀ a b, ws.Above a b → a.index < b.index := by
    intro a b hab
    induction hab with
    | single hstep =>
      obtain ⟨link, hpar⟩ := hstep
      exact h.older _ _ _ hpar
    | tail _ hstep ih =>
      obtain ⟨link, hpar⟩ := hstep
      exact Nat.lt_trans ih (h.older _ _ _ hpar)
  exact fun hid => Nat.lt_irrefl _ (hlt id id hid)

/-- A workspace that hangs together is a forest if and only if no block is lost. -/
theorem Hung.forest_iff (h : ws.Hung) : ws.Forest ↔ ws.Tied 0 := by
  constructor
  · exact fun hf p link c _ hpar => (hf.linked p link c).mpr hpar
  · exact fun ht => ⟨h.numbered, fun p link c => ⟨h.linked p link c, ht p link c (Nat.zero_le _)⟩,
      h.acyclic, h.mem_top, h.top_nodup⟩

theorem hung_empty : Hung empty := by
  have hpar : ∀ id, empty.parent? id = none := fun id => by simp [parent?, get?, empty]
  have hf := forest_empty
  exact ⟨hf.numbered, fun p link c => (hf.linked p link c).mp, fun p link c h => by simp [hpar] at h,
    fun p link c h => by simp [hpar] at h, hf.mem_top, hf.top_nodup⟩

theorem Hung.added (h : ws.Hung) (typeId : String) : (ws.added typeId).Hung := by
  have hnew : ws.parent? ⟨ws.capacity⟩ = none := by rw [parent?, get?_capacity]; rfl
  have hnot : (⟨ws.capacity⟩ : BlockId) ∉ ws.top := fun hmem =>
    not_live_iff.mpr (get?_capacity ws) ((h.mem_top _).mp hmem).1
  refine ⟨fun j b hb => ?_, ?_, ?_, ?_, fun j => ?_, ?_⟩
  · rw [get?_added] at hb
    split at hb
    · next hj => cases hb; exact hj.symm
    · exact h.numbered j b hb
  · simpa only [target?_added, parent?_added] using h.linked
  · simpa only [target?_added, parent?_added] using h.filled
  · simpa only [parent?_added] using h.older
  · show j ∈ ws.top ++ [⟨ws.capacity⟩] ↔ _
    rw [parent?_added, live_added, List.mem_append, List.mem_singleton, h.mem_top]
    by_cases hj : j = ⟨ws.capacity⟩ <;> simp [hj, hnew]
  · show (ws.top ++ [(⟨ws.capacity⟩ : BlockId)]).Nodup
    exact List.concat_eq_append ▸ h.top_nodup.concat hnot

section Payload

variable {f : Block → Block} (hf : Payload f)
include hf

theorem target?_payload (p : BlockId) (link : Link) :
    (ws.update id f).target? p link = ws.target? p link := by
  rw [target?_update]
  split
  · simp only [hf.target?]; rfl
  · rfl

theorem parent?_payload (c : BlockId) : (ws.update id f).parent? c = ws.parent? c := by
  rw [parent?_update]
  split
  · simp only [hf.parent]; rfl
  · rfl

theorem Hung.update (h : ws.Hung) : (ws.update id f).Hung := by
  refine ⟨fun j b hb => ?_, ?_, ?_, ?_, fun j => ?_, ?_⟩
  · rw [get?_update] at hb
    split at hb
    · obtain ⟨b', hb', rfl⟩ := Option.map_eq_some_iff.mp hb
      rw [hf.id]; exact h.numbered j b' hb'
    · exact h.numbered j b hb
  · simpa only [target?_payload hf, parent?_payload hf] using h.linked
  · simpa only [target?_payload hf, parent?_payload hf] using h.filled
  · simpa only [parent?_payload hf] using h.older
  · rw [top_update, live_update, parent?_payload hf]; exact h.mem_top j
  · rw [top_update]; exact h.top_nodup

end Payload

/-- A block of the top level is hung on an older one, whatever hangs there. -/
theorem Hung.plug (h : ws.Hung) (hp : ws.Live p) (hc : ws.Live c) (hfree : ws.parent? c = none)
    (hlt : p.index < c.index) (hlast : ∀ d, ws.parent? d = some (p, link) → d.index ≤ c.index) :
    (ws.plug p link c).Hung := by
  refine ⟨fun j b hb => ?_, fun q l d hd => ?_, fun q l d hd => ?_, fun q l d hd => ?_, fun j => ?_, ?_⟩
  · rw [get?_plug] at hb
    obtain ⟨_, hmap, rfl⟩ := Option.map_eq_some_iff.mp hb
    obtain ⟨b', hb', rfl⟩ := Option.map_eq_some_iff.mp hmap
    have hnum := h.numbered j b' hb'
    split <;> split <;> simpa using hnum
  · rw [target?_plug link hp] at hd
    rw [parent?_plug link hc]
    split at hd
    · next heq => cases heq; cases hd; rw [if_pos rfl]
    · have hpar := h.linked q l d hd
      have hne : c ≠ d := by rintro rfl; rw [hfree] at hpar; cases hpar
      rw [if_neg hne]; exact hpar
  · rw [parent?_plug link hc] at hd
    rw [target?_plug link hp]
    split at hd
    · next heq => cases heq; cases hd; exact ⟨c, if_pos rfl, Nat.le_refl _⟩
    · split
      · next heq => cases heq; exact ⟨c, rfl, hlast d hd⟩
      · exact h.filled q l d hd
  · rw [parent?_plug link hc] at hd
    split at hd
    · next heq => cases heq; cases hd; exact hlt
    · exact h.older q l d hd
  · rw [top_plug, live_plug, parent?_plug link hc, List.mem_filter, h.mem_top]
    by_cases hj : c = j
    · simp [hj]
    · simp [hj, Ne.symm hj]
  · rw [top_plug]; exact h.top_nodup.filter _

/-! ### What loading adds -/

/-- Loading has made `ws'` from `ws`, with the blocks from number `k` on. -/
structure Loaded (k : Nat) (ws ws' : Workspace) : Prop where
  hung : ws'.Hung
  kept : ∀ j, j.index < k → ws'.get? j = ws.get? j
  apart : ∀ p link c, k ≤ c.index → ws'.parent? c = some (p, link) → k ≤ p.index

/-- What a block element adds: a block with the next number, and others that hang on it. -/
def Settles (n : Node) : Prop := ∀ ws id ws', ws.Hung → (loadBlock n).apply ws = (.ok id, ws') →
  id = ⟨ws.capacity⟩ ∧ Loaded ws.capacity ws ws' ∧ ws'.Live id ∧ ws'.parent? id = none ∧
    (ws'.Tied ws.capacity ↔ n.Single)

theorem apply_bind_inv {α β : Type} {edit : Edit α} {next : α → Edit β} {b : β}
    (h : (edit >>= next).apply ws = (.ok b, ws')) :
    ∃ a mid, edit.apply ws = (.ok a, mid) ∧ (next a).apply mid = (.ok b, ws') := by
  rw [Edit.apply_bind] at h
  rcases hedit : edit.apply ws with ⟨_ | a, mid⟩
  · rw [hedit] at h; cases h
  · rw [hedit] at h; exact ⟨a, mid, rfl, h⟩

theorem parent?_congr (h : ws'.get? c = ws.get? c) : ws'.parent? c = ws.parent? c := by
  rw [parent?, h, parent?]

theorem target?_congr (h : ws'.get? p = ws.get? p) : ws'.target? p link = ws.target? p link := by
  rw [target?, h, target?]

theorem Loaded.tied_iff (h : Loaded ws.capacity ws ws') (hk : k ≤ ws.capacity) :
    ws'.Tied k ↔ ws.Tied k ∧ ws'.Tied ws.capacity := by
  have hold : ∀ p link c, ws'.parent? c = some (p, link) → c.index < ws.capacity →
      ws'.target? p link = ws.target? p link := fun p link c hpar hc =>
    target?_congr (h.kept p (Nat.lt_trans (h.hung.older p link c hpar) hc))
  constructor
  · refine fun ht => ⟨fun p link c hc hpar => ?_, fun p link c hc => ht p link c (Nat.le_trans hk hc)⟩
    have hlt := (live_of_parent? hpar).lt_capacity
    rw [← parent?_congr (h.kept c hlt)] at hpar
    rw [← hold p link c hpar hlt]
    exact ht p link c hc hpar
  · rintro ⟨ht, ht'⟩ p link c hc hpar
    rcases Nat.lt_or_ge c.index ws.capacity with hlt | hge
    · rw [hold p link c hpar hlt]
      rw [parent?_congr (h.kept c hlt)] at hpar
      exact ht p link c hc hpar
    · exact ht' p link c hge hpar

/-- A block that is hung up takes the place of the one that hangs there. -/
theorem Hung.tied_plug_iff (h : ws.Hung) (hp : ws.Live p) (hc : ws.Live c)
    (hfree : ws.parent? c = none) (hk : k ≤ p.index) :
    (ws.plug p link c).Tied k ↔ ws.Tied k ∧ ws.target? p link = none := by
  have hne : ∀ d x, ws.parent? d = some x → c ≠ d := by
    rintro d x hd rfl
    rw [hfree] at hd
    cases hd
  constructor
  · refine fun ht => ⟨fun q l d hd hpar => ?_, ?_⟩
    · have hplug := ht q l d hd (by rw [parent?_plug link hc, if_neg (hne d _ hpar)]; exact hpar)
      rw [target?_plug link hp] at hplug
      split at hplug
      · cases hplug; exact absurd rfl (hne _ _ hpar)
      · exact hplug
    · by_contra hfilled
      obtain ⟨d, hd⟩ := Option.ne_none_iff_exists'.mp hfilled
      have hpar := h.linked p link d hd
      have hlt := h.older p link d hpar
      have hplug := ht p link d (by omega) (by
        rw [parent?_plug link hc, if_neg (hne d _ hpar)]; exact hpar)
      rw [target?_plug link hp, if_pos rfl] at hplug
      cases hplug
      exact hne _ _ hpar rfl
  · rintro ⟨ht, hempty⟩ q l d hd hpar
    rw [parent?_plug link hc] at hpar
    rw [target?_plug link hp]
    split at hpar
    · next heq => cases hpar; rw [if_pos rfl, heq]
    · have htarget := ht q l d hd hpar
      split
      · next heq => cases heq; rw [hempty] at htarget; cases htarget
      · exact htarget

/-- A nested block is loaded and hung up. -/
theorem hang_loaded (hm : Settles m) (h : ws.Hung) (hid : ws.Live id) (hk : k ≤ id.index)
    (hapart : ∀ p link c, k ≤ c.index → ws.parent? c = some (p, link) → k ≤ p.index)
    (hrun : (hang id link (some (loadBlock m))).apply ws = (.ok (), ws')) :
    Loaded k ws ws' ∧ ws'.Live id ∧ ws'.parent? id = ws.parent? id ∧
      (∃ c, ∀ l, ws'.target? id l = if link = l then some c else ws.target? id l) ∧
      (ws'.Tied k ↔ ws.Tied k ∧ ws.target? id link = none ∧ m.Single) := by
  obtain ⟨c, mid, hload, hattach⟩ := apply_bind_inv hrun
  obtain ⟨rfl, hmid, hc, hfree, htied⟩ := hm ws c mid h hload
  have hlt := hid.lt_capacity
  have hidmid : mid.get? id = ws.get? id := hmid.kept id hlt
  have hp : mid.Live id := by rwa [Live, hidmid]
  rw [Edit.apply_attach hp hc] at hattach
  obtain rfl : mid.plug id link ⟨ws.capacity⟩ = ws' := congrArg Prod.snd hattach
  have hne : (⟨ws.capacity⟩ : BlockId) ≠ id := by rintro rfl; exact Nat.lt_irrefl _ hlt
  have hlast : ∀ d, mid.parent? d = some (id, link) → d.index ≤ ws.capacity := by
    intro d hd
    by_contra hgt
    have := hmid.apart id link d (by omega) hd
    omega
  refine ⟨⟨hmid.hung.plug hp hc hfree hlt hlast, fun j hj => ?_, fun q l d hd hpar => ?_⟩,
    (live_plug ..).mpr hp, ?_, ⟨⟨ws.capacity⟩, fun l => ?_⟩, ?_⟩
  · have hj' : id ≠ j := by rintro rfl; omega
    have hcj : (⟨ws.capacity⟩ : BlockId) ≠ j := by rintro rfl; simp at hj; omega
    rw [get?_plug, hmid.kept j (by omega)]
    simp [hj', hcj]
  · rw [parent?_plug link hc] at hpar
    split at hpar
    · cases hpar; exact hk
    · rcases Nat.lt_or_ge d.index ws.capacity with hold | hnew
      · rw [parent?_congr (hmid.kept d hold)] at hpar
        exact hapart q l d hd hpar
      · have := hmid.apart q l d hnew hpar
        omega
  · rw [parent?_plug link hc, if_neg hne, parent?_congr hidmid]
  · rw [target?_plug link hp]
    by_cases hl : link = l
    · rw [if_pos (by rw [hl]), if_pos hl]
    · rw [if_neg (by simpa using hl), if_neg hl, target?_congr hidmid]
  · rw [hmid.hung.tied_plug_iff hp hc hfree hk, hmid.tied_iff (by omega), htied,
      target?_congr hidmid, and_assoc]
    exact and_congr_right fun _ => and_comm

/-- The links that later elements fill are free once `link` is filled. -/
theorem unfilled_iff {fills : List (Link × Node)}
    (htarget : ∀ l, ws'.target? id l = if link = l then some c else ws.target? id l) :
    (∀ x ∈ fills, ws'.target? id x.1 = none) ↔
      link ∉ fills.map Prod.fst ∧ ∀ x ∈ fills, ws.target? id x.1 = none := by
  have hstep : ∀ l, ws'.target? id l = none ↔ link ≠ l ∧ ws.target? id l = none := by
    intro l
    rw [htarget]
    by_cases hl : link = l <;> simp [hl]
  constructor
  · refine fun hnone => ⟨fun hmem => ?_, fun x hx => ((hstep _).mp (hnone x hx)).2⟩
    obtain ⟨x, hx, hlink⟩ := List.mem_map.mp hmem
    exact ((hstep _).mp (hnone x hx)).1 hlink.symm
  · rintro ⟨hnew, hnone⟩ x hx
    exact (hstep _).mpr ⟨fun heq => hnew (heq ▸ List.mem_map_of_mem hx), hnone x hx⟩

/-- The parts of a block are loaded, one after the other. -/
theorem loadParts_loaded (hns : ∀ x ∈ ns.filterMap Node.filled?, Settles x.2) (h : ws.Hung)
    (hid : ws.Live id) (hk : k ≤ id.index)
    (hapart : ∀ p link c, k ≤ c.index → ws.parent? c = some (p, link) → k ≤ p.index)
    (hrun : (loadParts id ns).apply ws = (.ok (), ws')) :
    Loaded k ws ws' ∧ ws'.Live id ∧ ws'.parent? id = ws.parent? id ∧
      (ws'.Tied k ↔ ws.Tied k ∧ ((ns.filterMap Node.filled?).map Prod.fst).Nodup ∧
        (∀ x ∈ ns.filterMap Node.filled?, ws.target? id x.1 = none) ∧
        ∀ x ∈ ns.filterMap Node.filled?, x.2.Single) := by
  induction ns generalizing ws with
  | nil =>
    rw [loadParts] at hrun
    cases hrun
    exact ⟨⟨h, fun _ _ => rfl, hapart⟩, hid, rfl, by simp⟩
  | cons n ns ih =>
    cases hfilled : n.filled? with
    | none =>
      rw [List.filterMap_cons_none hfilled] at hns ⊢
      rcases loadParts_plain hfilled with hplain | ⟨f, hf, halter⟩
      · rw [hplain] at hrun
        exact ih hns h hid hapart hrun
      · rw [halter, Edit.apply_bind_ok (Edit.apply_alter hid f)] at hrun
        have hstep := ih hns (h.update hf) ((live_update ..).mpr hid)
          (by simpa only [parent?_payload hf] using hapart) hrun
        obtain ⟨⟨hung, hkept, hapart'⟩, hlive, hpar, htied⟩ := hstep
        refine ⟨⟨hung, fun j hj => ?_, hapart'⟩, hlive, ?_, ?_⟩
        · have hne : id ≠ j := by rintro rfl; omega
          rw [hkept j hj, get?_update, if_neg hne]
        · rw [hpar, parent?_payload hf]
        · simpa only [Tied, target?_payload hf, parent?_payload hf] using htied
    | some x =>
      obtain ⟨link, m⟩ := x
      rw [List.filterMap_cons_some hfilled] at hns ⊢
      rw [loadParts_filled hfilled] at hrun
      obtain ⟨⟨⟩, mid, hhang, hrest⟩ := apply_bind_inv hrun
      obtain ⟨hmid, hlive, hpar, ⟨c, htarget⟩, htied⟩ :=
        hang_loaded (hns _ (List.mem_cons_self ..)) h hid hk hapart hhang
      obtain ⟨hloaded, hlive', hpar', htied'⟩ :=
        ih (fun y hy => hns y (List.mem_cons_of_mem _ hy)) hmid.hung hlive hmid.apart hrest
      refine ⟨⟨hloaded.hung, fun j hj => (hloaded.kept j hj).trans (hmid.kept j hj), hloaded.apart⟩,
        hlive', hpar'.trans hpar, ?_⟩
      rw [htied', htied, unfilled_iff htarget, List.map_cons, List.nodup_cons, List.forall_mem_cons,
        List.forall_mem_cons]
      constructor
      · rintro ⟨⟨ht, hempty, hm⟩, hnodup, ⟨hnew, hrest⟩, hsingle⟩
        exact ⟨ht, ⟨hnew, hnodup⟩, ⟨hempty, hrest⟩, hm, hsingle⟩
      · rintro ⟨ht, ⟨hnew, hnodup⟩, ⟨hempty, hrest⟩, hm, hsingle⟩
        exact ⟨⟨ht, hempty, hm⟩, hnodup, ⟨hnew, hrest⟩, hsingle⟩

/-- A new block, with its place. -/
theorem start_loaded (h : ws.Hung) (typeId : String) (position : Option Position)
    {rest : Edit BlockId} {result : Except Fault BlockId × Workspace}
    (hrun : (do
      match position with
      | some p => Edit.setPosition ⟨ws.capacity⟩ p
      | none => pure ()
      rest : Edit BlockId).apply (ws.added typeId) = result) :
    ∃ start : Workspace, start.Hung ∧ start.Live ⟨ws.capacity⟩ ∧
      (∀ j, j.index < ws.capacity → start.get? j = ws.get? j) ∧
      (∀ c, start.parent? c = ws.parent? c) ∧
      (∀ p link, start.target? p link = ws.target? p link) ∧ rest.apply start = result := by
  have hlive : (ws.added typeId).Live ⟨ws.capacity⟩ := (live_added ..).mpr (.inl rfl)
  have hkept : ∀ j : BlockId, j.index < ws.capacity → (ws.added typeId).get? j = ws.get? j := by
    intro j hj
    rw [get?_added, if_neg (by rintro rfl; exact Nat.lt_irrefl _ hj)]
  cases position with
  | none =>
    exact ⟨ws.added typeId, h.added typeId, hlive, hkept, parent?_added ws typeId,
      target?_added ws typeId, hrun⟩
  | some p =>
    have hpayload := payload_setPosition p
    have hset :
        (Edit.setPosition ⟨ws.capacity⟩ p >>= fun _ => rest).apply (ws.added typeId) = result :=
      hrun
    rw [Edit.setPosition, Edit.apply_bind_ok (Edit.apply_alter hlive _)] at hset
    refine ⟨_, (h.added typeId).update hpayload, (live_update ..).mpr hlive, fun j hj => ?_,
      fun c => ?_, fun q link => ?_, hset⟩
    · rw [get?_update, if_neg (by rintro rfl; exact Nat.lt_irrefl _ hj), hkept j hj]
    · rw [parent?_payload hpayload, parent?_added]
    · rw [target?_payload hpayload, target?_added]

theorem settles (n : Node) : Settles n := by
  induction hn : sizeOf n using Nat.strong_induction_on generalizing n with
  | _ size ih =>
    subst hn
    intro ws id ws' h hrun
    cases n with
    | text t => rw [loadBlock] at hrun; cases hrun; simp
    | cdata t => rw [loadBlock] at hrun; cases hrun; simp
    | element tag attributes children =>
      have hsettles : ∀ x ∈ children.filterMap Node.filled?, Settles x.2 := by
        intro x hx
        obtain ⟨m, hm, hfilled⟩ := List.mem_filterMap.mp hx
        have hlt := Node.sizeOf_lt_of_filled? hfilled
        have hlt' := List.sizeOf_lt_of_mem hm
        refine ih _ ?_ x.2 rfl
        simp only [Node.element.sizeOf_spec]
        omega
      rw [loadBlock] at hrun
      cases htype : attributes.get? "type" with
      | none => rw [htype] at hrun; cases hrun
      | some typeId =>
        have hadd : (Edit.add typeId).apply ws = (.ok ⟨ws.capacity⟩, ws.added typeId) := rfl
        simp only [htype] at hrun
        rw [Edit.apply_bind_ok hadd] at hrun
        obtain ⟨start, hstart, hlive, hkept, hpar, htarget, hrun⟩ := start_loaded h typeId _ hrun
        obtain ⟨⟨⟩, mid, hparts, hreturn⟩ := apply_bind_inv hrun
        cases hreturn
        have hnone : ∀ c : BlockId, ws.capacity ≤ c.index → start.parent? c = none := by
          intro c hc
          rw [hpar]
          by_contra hsome
          obtain ⟨x, hx⟩ := Option.ne_none_iff_exists'.mp hsome
          exact absurd (live_of_parent? hx).lt_capacity (Nat.not_lt.mpr hc)
        have hempty : ∀ link, start.target? ⟨ws.capacity⟩ link = none := by
          intro link
          rw [htarget, target?, get?_capacity]
          rfl
        obtain ⟨hloaded, hlive', hpar', htied⟩ := loadParts_loaded hsettles hstart hlive
          (Nat.le_refl ws.capacity) (fun p link c hc hp => by rw [hnone c hc] at hp; cases hp) hparts
        refine ⟨rfl, ⟨hloaded.hung, fun j hj => (hloaded.kept j hj).trans (hkept j hj),
          hloaded.apart⟩, hlive', hpar'.trans (hnone _ (Nat.le_refl _)), ?_⟩
        have hstarted : start.Tied ws.capacity := fun p link c hc hp => by
          rw [hnone c hc] at hp; cases hp
        rw [htied, Node.single_element_iff]
        simp [hstarted, hempty]

theorem loadStacks_loaded (h : ws.Hung) (hrun : (loadStacks ns).apply ws = (.ok (), ws')) :
    ws'.Hung ∧ (ws'.Tied 0 ↔ ws.Tied 0 ∧
      ∀ n ∈ ns, (n.isNamed "block" || n.isNamed "shadow") = true → n.Single) := by
  induction ns generalizing ws with
  | nil =>
    rw [loadStacks] at hrun
    cases hrun
    exact ⟨h, by simp⟩
  | cons n ns ih =>
    rw [loadStacks] at hrun
    cases hnamed : n.isNamed "block" || n.isNamed "shadow" with
    | false =>
      rw [hnamed] at hrun
      obtain ⟨hung, htied⟩ := ih h hrun
      refine ⟨hung, ?_⟩
      rw [htied, List.forall_mem_cons, hnamed]
      simp
    | true =>
      rw [hnamed] at hrun
      obtain ⟨id, mid, hload, hrest⟩ := apply_bind_inv hrun
      obtain ⟨-, hmid, -, -, hsingle⟩ := settles n ws id mid h hload
      obtain ⟨hung, htied⟩ := ih hmid.hung hrest
      refine ⟨hung, ?_⟩
      rw [htied, hmid.tied_iff (Nat.zero_le _), hsingle, List.forall_mem_cons, hnamed, and_assoc]
      simp

/-! ### Edits of a forest stay near -/

theorem Forest.aboveEq_release_iff (hf : ws.Forest) {j : BlockId} :
    (ws.release id).AboveEq id j ↔ ws.AboveEq id j := by
  refine ⟨aboveEq_of_release, fun h => ?_⟩
  cases hpar : ws.parent? id with
  | none => rwa [release_of_parent?_none hpar]
  | some at? =>
    obtain ⟨p, link⟩ := at?
    induction h with
    | refl => exact .refl
    | @tail q j hq hstep ih =>
      obtain ⟨l, hl⟩ := hstep
      have hne : id ≠ j := by
        rintro rfl
        exact hf.acyclic id ((above_iff_of_parent? hl).mpr hq)
      exact ih.tail ⟨l, by rw [parent?_release hpar, if_neg hne]; exact hl⟩

/-- The block of a number, without a link to `id`. -/
def cutFrom (ws : Workspace) (id j : BlockId) : Option Block :=
  match ws.parent? id with
  | some (p, link) => if p = j then (ws.get? j).map fun b => b.withoutLink link else ws.get? j
  | none => ws.get? j

/-- To disconnect a block changes the link to it, its own parent and its place at the top level. To
delete it changes the link to it, and takes it and what is below it away. Nothing else changes: no
other block, and no other place at the top level. -/
structure Local (ws : Workspace) (id : BlockId) : Prop where
  disconnect : ∃ ws', (Edit.disconnect id).apply ws = (.ok (), ws') ∧
    (ws'.get? id = (ws.get? id).map fun b => b.withParent none) ∧
    (∀ j, j ≠ id → ws'.get? j = ws.cutFrom id j) ∧
    ws'.top = if id ∈ ws.top then ws.top else ws.top ++ [id]
  delete : ∃ ws', (Edit.delete id).apply ws = (.ok (), ws') ∧
    (∀ j, ws.Reaches id j → ws'.get? j = none) ∧
    (∀ j, ¬ ws.Reaches id j → ws'.get? j = ws.cutFrom id j) ∧
    ws'.top = ws.top.filter (· ≠ id)

theorem Forest.ne_of_parent? (hf : ws.Forest) (h : ws.parent? c = some (p, link)) : p ≠ c := by
  rintro rfl
  exact hf.acyclic p (ParentOf.above ⟨link, h⟩)

theorem Forest.get?_release_self (hf : ws.Forest) (hid : ws.Live id) :
    (ws.release id).get? id = (ws.get? id).map fun b => b.withParent none := by
  cases hpar : ws.parent? id with
  | none =>
    obtain ⟨b, hb⟩ := hid
    have hparent : b.parent = none := (parent?_of_get? hb).symm.trans hpar
    rw [release_of_parent?_none hpar, hb, Option.map_some, Block.withParent, ← hparent]
  | some at? =>
    have hne : at?.1 ≠ id := hf.ne_of_parent? hpar
    rw [get?_release hpar]
    simp [hne, Function.comp_def]

theorem get?_release_of_ne {j : BlockId} (hj : j ≠ id) :
    (ws.release id).get? j = ws.cutFrom id j := by
  rw [cutFrom]
  cases hpar : ws.parent? id with
  | none => rw [release_of_parent?_none hpar]
  | some at? =>
    rw [get?_release hpar]
    by_cases hp : at?.1 = j <;> simp [hp, hj.symm]

theorem Forest.top_release_eq (hf : ws.Forest) (hid : ws.Live id) :
    (ws.release id).top = if id ∈ ws.top then ws.top else ws.top ++ [id] := by
  cases hpar : ws.parent? id with
  | none => rw [release_of_parent?_none hpar, if_pos ((hf.mem_top id).mpr ⟨hid, hpar⟩)]
  | some at? =>
    have hnot : id ∉ ws.top := by
      intro hmem
      have hnone := ((hf.mem_top id).mp hmem).2
      rw [hpar] at hnone
      cases hnone
    rw [top_release hpar, if_neg hnot]

theorem Forest.local (hf : ws.Forest) (hid : ws.Live id) : ws.Local id := by
  refine ⟨⟨_, apply_disconnect hf hid, hf.get?_release_self hid, fun j => get?_release_of_ne,
    hf.top_release_eq hid⟩, ⟨_, Edit.apply_delete hf hid, ?_, ?_, top_deleted_eq ws id⟩⟩
  · intro j hj
    rw [hf.get?_deleted, if_pos (hf.aboveEq_release_iff.mpr (hf.reaches_iff.mp hj))]
  · intro j hj
    have hne : j ≠ id := fun heq => hj (heq ▸ .refl)
    rw [hf.get?_deleted, if_neg fun h => hj (hf.reaches_iff.mpr (hf.aboveEq_release_iff.mp h)),
      get?_release_of_ne hne]

/-! ### Documents -/

theorem ofNode_loaded {root : Node} (h : ofNode root = .ok ws) :
    ws.Hung ∧ (ws.Forest ↔ root.SingleStacks) := by
  cases root with
  | text t => cases h; exact ⟨hung_empty, iff_of_true forest_empty trivial⟩
  | cdata t => cases h; exact ⟨hung_empty, iff_of_true forest_empty trivial⟩
  | element tag attributes children =>
    rw [ofNode] at h
    split at h
    · next hrun =>
      cases h
      obtain ⟨hung, htied⟩ := loadStacks_loaded hung_empty hrun
      have hempty : Tied 0 empty := hung_empty.forest_iff.mp forest_empty
      refine ⟨hung, ?_⟩
      rw [hung.forest_iff, htied]
      exact and_iff_right hempty
    · cases h

/-- A document that loads gives blocks that hang together. It gives a forest just if no two elements
fill one link of a block; then links lead to every block from the top level, and edits stay near. -/
theorem load_forest_iff (text : String) (ws : Workspace) (h : load text = .ok ws) :
    ∃ root, Node.parse? text = some root ∧ ws.Hung ∧ (ws.Forest ↔ root.SingleStacks) ∧
      (root.SingleStacks → ∀ id, ws.Live id →
        (∃ r ∈ ws.top, ws.Reaches r id) ∧ ws.Local id) := by
  rw [load] at h
  cases hparse : Node.parse? text with
  | none => rw [hparse] at h; cases h
  | some root =>
    rw [hparse] at h
    obtain ⟨hung, hiff⟩ := ofNode_loaded h
    refine ⟨root, rfl, hung, hiff, fun hsingle id hid => ?_⟩
    have hf := hiff.mpr hsingle
    obtain ⟨r, hr, hbelow⟩ := hf.exists_root hid
    exact ⟨⟨r, hr, hf.reaches_iff.mpr hbelow⟩, hf.local hid⟩

/-- A statement that holds a value and has another one behind it, and a second stack. -/
def nestedText : String :=
  "<xml><block type=\"python_print\"><value name=\"VALUE\"><block type=\"python_number\"/></value>" ++
  "<next><block type=\"python_pass\"/></next></block><block type=\"python_none\"/></xml>"

def nestedStacks : Workspace where
  blocks :=
    #[some { id := ⟨0⟩, typeId := "python_print", inputs := Dict.empty.insert "VALUE" ⟨1⟩,
             next := some ⟨2⟩ },
      some { id := ⟨1⟩, typeId := "python_number", parent := some (⟨0⟩, .input "VALUE") },
      some { id := ⟨2⟩, typeId := "python_pass", parent := some (⟨0⟩, .next) },
      some { id := ⟨3⟩, typeId := "python_none" }]
  top := [⟨0⟩, ⟨3⟩]

theorem load_nestedText : load nestedText = .ok nestedStacks := by decide +kernel

theorem tied_nestedStacks : nestedStacks.Tied 0 := by
  rintro p link ⟨c⟩ - hpar
  have hlt : c < 4 := (live_of_parent? hpar).lt_capacity
  rcases c with _ | _ | _ | _ | c
  · cases hpar
  · cases hpar; rfl
  · cases hpar; rfl
  · cases hpar
  · omega

theorem load_forest_iff_nested :
    load nestedText = .ok nestedStacks ∧ nestedStacks.Forest ∧
    ∃ root, Node.parse? nestedText = some root ∧ root.SingleStacks ∧
      ∀ id, nestedStacks.Live id →
        (∃ r ∈ nestedStacks.top, nestedStacks.Reaches r id) ∧ nestedStacks.Local id := by
  obtain ⟨root, hroot, hung, hiff, hlocal⟩ :=
    load_forest_iff nestedText nestedStacks load_nestedText
  have hf : nestedStacks.Forest := hung.forest_iff.mpr tied_nestedStacks
  exact ⟨load_nestedText, hf, root, hroot, hiff.mp hf, hlocal (hiff.mp hf)⟩

/-- Two elements fill one slot. -/
def repeatedText : String :=
  "<xml><block type=\"python_print\"><value name=\"VALUE\"><block type=\"python_number\"/></value>" ++
  "<value name=\"VALUE\"><block type=\"python_none\"/></value></block></xml>"

def repeatedSlot : Workspace where
  blocks :=
    #[some { id := ⟨0⟩, typeId := "python_print", inputs := Dict.empty.insert "VALUE" ⟨2⟩ },
      some { id := ⟨1⟩, typeId := "python_number", parent := some (⟨0⟩, .input "VALUE") },
      some { id := ⟨2⟩, typeId := "python_none", parent := some (⟨0⟩, .input "VALUE") }]
  top := [⟨0⟩]

theorem load_repeatedText : load repeatedText = .ok repeatedSlot := by decide +kernel

/-- The first of the two blocks is not at the top level, and the link that it names as its own leads
to the second one. -/
theorem load_loses_block : ∃ text ws id p link, load text = .ok ws ∧ ws.Live id ∧ id ∉ ws.top ∧
    ws.parent? id = some (p, link) ∧ ws.target? p link ≠ some id :=
  ⟨repeatedText, repeatedSlot, ⟨1⟩, ⟨0⟩, .input "VALUE", load_repeatedText, ⟨_, rfl⟩, by decide,
    by decide, by decide +kernel⟩

end Workspace

end Blockwright
