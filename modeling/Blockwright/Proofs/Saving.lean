import Blockwright.Proofs.Coordinates
import Blockwright.Proofs.Deletion
import Blockwright.Proofs.Rendering

/-!
# The elements of blocks

`Depicts registry ws id n` says that `n` is the element of a block with all that hangs on it,
without fuel. Every live block of a forest has one (`Forest.blockNode_ok`), and it can be written
and read if the texts in the blocks can (`Depicts.tidy`).
-/

namespace Blockwright

open Markup

/-- A block whose texts can be written in a document, and whose coordinates are numbers of the
binary64 format. -/
structure Block.Savable (b : Block) : Prop where
  typeId : Allowed b.typeId.toList
  fields : ∀ f ∈ b.fields.entries, Allowed f.1.toList ∧ Allowed f.2.toList
  slots : ∀ e ∈ b.inputs.entries, Allowed e.1.toList
  position : ∀ p ∈ b.position, p.x.toInt.natAbs ≤ 2 ^ 53 ∧ p.y.toInt.natAbs ≤ 2 ^ 53

-- Named, since an instance that tries every character may be found first.
instance (cs : List Char) : Decidable (Allowed cs) :=
  List.decidableBAll (fun c : Char => Edition.first.isAllowed c.toNat = true) cs

instance (b : Block) : Decidable b.Savable :=
  decidable_of_iff
    (Allowed b.typeId.toList ∧ (∀ f ∈ b.fields.entries, Allowed f.1.toList ∧ Allowed f.2.toList) ∧
      (∀ e ∈ b.inputs.entries, Allowed e.1.toList) ∧
      ∀ p ∈ b.position, p.x.toInt.natAbs ≤ 2 ^ 53 ∧ p.y.toInt.natAbs ≤ 2 ^ 53)
    ⟨fun ⟨htype, hfields, hslots, hposition⟩ => ⟨htype, hfields, hslots, hposition⟩,
      fun h => ⟨h.typeId, h.fields, h.slots, h.position⟩⟩

theorem Dict.mem_foldl_insert {α : Type} {added : List (String × α)} {d : Dict α} {e : String × α}
    (h : e ∈ (added.foldl (fun d a => d.insert a.1 a.2) d).entries) :
    e ∈ d.entries ∨ e ∈ added := by
  induction added generalizing d with
  | nil => exact .inl h
  | cons a added ih =>
    rcases ih h with h | h
    · rcases Dict.fst_mem_place h with rfl | h
      · exact .inr (List.mem_cons_self ..)
      · exact .inl h
    · exact .inr (List.mem_cons_of_mem _ h)

namespace Workspace

variable {registry : Registry} {ws : Workspace} {id : BlockId} {b : Block} {n : Node}

/-- The attributes of an element, given as a list. -/
def attributesOf (attributes : List (String × String)) : Dict String :=
  attributes.foldl (fun d a => d.insert a.1 a.2) Dict.empty

theorem elementOf_eq (name : String) (attributes : List (String × String)) (children : List Node) :
    elementOf name attributes children = .element name (attributesOf attributes) children := rfl

/-- The element that notes how a call shows its arguments. -/
def mutationNodes : ArgMode → List Node
  | .compact => []
  | .expanded => [elementOf "mutation" [("expanded", "true")] []]

/-- The name of the element for a slot. -/
def inputTag (registry : Registry) (b : Block) (slot : String) : String :=
  if isBodySlot registry b slot then "statement" else "value"

/-- The parts of the element of a block, given the elements of the blocks that hang on it. -/
def parts (registry : Registry) (b : Block) (node : BlockId → Node) : List Node :=
  mutationNodes b.mode ++
    ((b.fields.entries.map fun f => elementOf "field" [("name", f.1)] [.text f.2]) ++
    ((b.inputs.entries.map fun e =>
      elementOf (inputTag registry b e.1) [("name", e.1)] [node e.2]) ++
    b.next.toList.map fun c => elementOf "next" [] [node c]))

/-- `n` is the element of a block with all that hangs on it. -/
inductive Depicts (registry : Registry) (ws : Workspace) : BlockId → Node → Prop
  | mk {id : BlockId} {b : Block} {node : BlockId → Node} (hb : ws.get? id = some b)
      (hchildren : ∀ c ∈ b.children, Depicts registry ws c (node c)) :
      Depicts registry ws id
        (elementOf "block" (blockAttributes b id b.parent.isNone) (parts registry b node))

/-! ### Saving succeeds -/

theorem inputNodes_eq {node : BlockId → Except Fault Node} {node' : BlockId → Node}
    {entries : List (String × BlockId)} (h : ∀ e ∈ entries, node e.2 = .ok (node' e.2)) :
    inputNodes registry b node entries = .ok (entries.map fun e =>
      elementOf (inputTag registry b e.1) [("name", e.1)] [node' e.2]) := by
  induction entries with
  | nil => rfl
  | cons e entries ih =>
    obtain ⟨slot, child⟩ := e
    rw [inputNodes, h _ (List.mem_cons_self ..), ih fun e he => h e (List.mem_cons_of_mem _ he)]
    rfl

theorem nextNodes_eq {node : BlockId → Except Fault Node} {node' : BlockId → Node}
    {next : Option BlockId} (h : ∀ c ∈ next, node c = .ok (node' c)) :
    nextNodes node next = .ok (next.toList.map fun c => elementOf "next" [] [node' c]) := by
  cases next with
  | none => rfl
  | some c =>
    rw [nextNodes, h c rfl]
    rfl

theorem Forest.blockNode_ok (hf : ws.Forest) {fuel : Nat} (hb : ws.get? id = some b)
    (hfuel : ws.height id < fuel) :
    ∃ n, blockNode registry ws fuel b.parent.isNone id = .ok n ∧ Depicts registry ws id n := by
  induction fuel generalizing id b with
  | zero => omega
  | succ fuel ih =>
    have hchild : ∀ c, ∃ n, c ∈ b.children →
        blockNode registry ws fuel false c = .ok n ∧ Depicts registry ws c n := by
      intro c
      by_cases hc : c ∈ b.children
      · obtain ⟨link, hlink⟩ := (hf.linkTo_iff).mp ((Workspace.linkTo_iff hb).mpr hc)
        obtain ⟨d, hd⟩ := live_of_parent? hlink
        have hlt := hf.height_lt_of_above (ParentOf.above ⟨link, hlink⟩)
        have hparent : d.parent.isNone = false := by rw [← parent?_of_get? hd, hlink]; rfl
        obtain ⟨n, hn, hdepicts⟩ := ih hd (by omega)
        exact ⟨n, fun _ => ⟨hparent ▸ hn, hdepicts⟩⟩
      · exact ⟨.text "", fun hmem => absurd hmem hc⟩
    choose node hnode using hchild
    have hinputs : ∀ e ∈ b.inputs.entries,
        blockNode registry ws fuel false e.2 = .ok (node e.2) := fun e he =>
      (hnode e.2 (List.mem_append_left _ (List.mem_map_of_mem he))).1
    have hnext : ∀ c ∈ b.next, blockNode registry ws fuel false c = .ok (node c) := fun c hc =>
      (hnode c (List.mem_append_right _ (Option.mem_toList.mpr hc))).1
    refine ⟨_, ?_, .mk hb fun c hc => (hnode c hc).2⟩
    simp only [blockNode, get_of_get? hb, bind, Except.bind, inputNodes_eq hinputs,
      nextNodes_eq hnext, parts, List.append_assoc]
    rfl

theorem Forest.stackNodes_ok (hf : ws.Forest) {roots : List BlockId}
    (hroots : ∀ r ∈ roots, r ∈ ws.top) :
    ∃ ns, stackNodes registry ws roots = .ok ns ∧ List.Forall₂ (Depicts registry ws) roots ns := by
  induction roots with
  | nil => exact ⟨[], rfl, .nil⟩
  | cons r roots ih =>
    obtain ⟨⟨b, hb⟩, hparent⟩ := (hf.mem_top r).mp (hroots r (List.mem_cons_self ..))
    obtain ⟨n, hn, hdepicts⟩ := hf.blockNode_ok hb (hf.height_lt ⟨b, hb⟩)
    have hn' : blockNode registry ws ws.capacity true r = .ok n := by
      rw [← parent?_of_get? hb, hparent] at hn
      exact hn
    obtain ⟨ns, hns, hall⟩ := ih fun r hr => hroots r (List.mem_cons_of_mem _ hr)
    refine ⟨n :: ns, ?_, .cons hdepicts hall⟩
    rw [stackNodes, hn', hns]
    rfl

/-! ### What is saved can be written -/

/-- The names that attributes have in the documents of workspaces. -/
def attributeNames : List String := ["type", "id", "x", "y", "name", "expanded"]

theorem tidyTag_of_list {name : String} {attributes : List (String × String)}
    (hname : isPlainName name = true)
    (hattributes : ∀ a ∈ attributes, a.1 ∈ attributeNames ∧ Allowed a.2.toList) :
    TidyTag name (attributesOf attributes) := by
  have hnames : ∀ name ∈ attributeNames, isPlainName name = true ∧ name ≠ "xmlns" := by
    decide +kernel
  refine ⟨hname, fun a ha => ?_⟩
  obtain ⟨hmem, hvalue⟩ := hattributes a ((Dict.mem_foldl_insert ha).resolve_left List.not_mem_nil)
  exact ⟨(hnames _ hmem).1, (hnames _ hmem).2, hvalue⟩

theorem allowed_toDigits (n : Nat) : Allowed (Nat.toDigits 10 n) := by
  intro c hc
  have hbounds := toNat_of_mem_toDigits hc
  simp only [Edition.isAllowed, Bool.or_eq_true, Bool.and_eq_true, decide_eq_true_eq, beq_iff_eq]
  omega

theorem allowed_toString_int (n : Int) : Allowed (toString n).toList := by
  cases n with
  | ofNat n => exact (toList_toString_nat n).symm ▸ allowed_toDigits n
  | negSucc n =>
    rw [toList_toString_negSucc]
    intro c hc
    rcases List.mem_cons.mp hc with rfl | hc
    · rfl
    · exact allowed_toDigits _ c hc

theorem tidyTag_block (hb : b.Savable) (id : BlockId) (isTop : Bool) :
    TidyTag "block" (attributesOf (blockAttributes b id isTop)) := by
  have hnat : Allowed (toString id.index).toList :=
    (toList_toString_nat id.index).symm ▸ allowed_toDigits _
  refine tidyTag_of_list (by decide +kernel) fun a ha => ?_
  rcases List.mem_append.mp ha with ha | ha
  · simp only [List.mem_cons, List.not_mem_nil, or_false] at ha
    rcases ha with rfl | rfl
    · exact ⟨by simp [attributeNames], hb.typeId⟩
    · exact ⟨by simp [attributeNames], hnat⟩
  · split at ha
    · simp only [List.mem_cons, List.not_mem_nil, or_false] at ha
      rcases ha with rfl | rfl
      · exact ⟨by simp [attributeNames], allowed_toString_int _⟩
      · exact ⟨by simp [attributeNames], allowed_toString_int _⟩
    · simp at ha

theorem tidyTag_named {tag name : String} (htag : isPlainName tag = true)
    (hname : Allowed name.toList) :
    TidyTag tag (attributesOf [("name", name)]) := by
  refine tidyTag_of_list htag fun a ha => ?_
  rw [List.mem_singleton.mp ha]
  exact ⟨by simp [attributeNames], hname⟩

theorem Depicts.tidy (h : Depicts registry ws id n) (hs : ∀ b ∈ ws.live, b.Savable) : Tidy n := by
  induction h with
  | @mk id b node hb _ ih =>
    have hsave : b.Savable := hs b (mem_live_iff.mpr ⟨id, hb⟩)
    have hone : ∀ c ∈ b.children, ∀ m ∈ [node c], Tidy m := fun c hc m hm =>
      List.mem_singleton.mp hm ▸ ih c hc
    refine .elements (tidyTag_block hsave id _) fun m hm => ?_
    simp only [parts, List.mem_append, List.mem_map] at hm
    rcases hm with hm | ⟨f, hf, rfl⟩ | ⟨e, he, rfl⟩ | ⟨c, hc, rfl⟩
    · cases hmode : b.mode with
      | compact => simp [hmode, mutationNodes] at hm
      | expanded =>
        simp only [hmode, mutationNodes, List.mem_singleton] at hm
        subst hm
        refine .elements (tidyTag_of_list (by decide +kernel) fun a ha => ?_) (by simp)
        rw [List.mem_singleton.mp ha]
        exact ⟨by simp [attributeNames], by decide +kernel⟩
    · exact .text (tidyTag_named (by decide +kernel) (hsave.fields f hf).1) (hsave.fields f hf).2
    · refine .elements (tidyTag_named ?_ (hsave.slots e he))
        (hone e.2 (List.mem_append_left _ (List.mem_map_of_mem he)))
      rw [inputTag]
      split <;> decide +kernel
    · exact .elements (tidyTag_of_list (by decide +kernel) (by simp))
        (hone c (List.mem_append_right _ hc))

end Workspace

end Blockwright
