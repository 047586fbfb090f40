import Blockwright.Catalogue.Basic
import Blockwright.Proofs.History
import Blockwright.Proofs.Preorder
import Blockwright.Proofs.Saving

/-!
# Documents give workspaces back

A loaded workspace numbers its blocks in the order in which their elements begin. `Loads` states
what loading the element of a block adds to a workspace: copies of the blocks under it, in that
order. It holds of every element that depicts a block (`Depicts.loads`). So the tree of a workspace
loads as the renumbering of the workspace (`Forest.ofNode_toNode`), and the text that is written for
the tree does so too (`load_save_renumbers`).
-/

namespace Blockwright

open Markup

/-- The dictionary with its values changed. -/
def Dict.mapValues {α β : Type} (f : α → β) (d : Dict α) : Dict β :=
  ⟨d.entries.map fun e => (e.1, f e.2), by
    rw [Ascending, List.pairwise_map]
    exact d.ascending⟩

theorem Dict.foldl_insert_map {α β : Type} (f : α → β) (d : Dict α) :
    d.entries.foldl (fun acc e => acc.insert e.1 (f e.2)) Dict.empty = d.mapValues f := by
  have h := (d.mapValues f).foldl_insert_entries
  rwa [mapValues, List.foldl_map] at h

/-- A text as a document gives it back: white space alone is lost. -/
def keptValue (text : String) : String := if text.toList.all Text.isGap then "" else text

/-- A block under the numbers that `num` gives. Only blocks at the top level keep their place. -/
def Block.renumbered (num : BlockId → BlockId) (b : Block) : Block where
  id := num b.id
  typeId := b.typeId
  fields := b.fields.mapValues keptValue
  inputs := b.inputs.mapValues num
  next := b.next.map num
  parent := b.parent.map fun at? => (num at?.1, at?.2)
  mode := b.mode
  position := if b.parent.isNone then b.position else none

namespace Workspace

/-- The blocks of a list under the numbers that `num` gives. -/
def copies (ws : Workspace) (num : BlockId → BlockId) (ids : List BlockId) : List (Option Block) :=
  ids.map fun id => (ws.get? id).map (Block.renumbered num)

/-- The workspace with its blocks numbered in an order, and with its stacks in the order of their
places. -/
def renumbered (ws : Workspace) (order : List BlockId) : Workspace :=
  let num := fun id => ⟨order.idxOf id⟩
  { blocks := (ws.copies num order).toArray, top := ws.topBlocks.map num }

/-- A workspace given by the list of its blocks. -/
def listed (blocks : List (Option Block)) (top : List BlockId) : Workspace :=
  { blocks := blocks.toArray, top }

/-- The blocks of a list have the numbers from `k` on. -/
def Numbered (num : BlockId → BlockId) : Nat → List BlockId → Prop
  | _, [] => True
  | k, id :: ids => num id = ⟨k⟩ ∧ Numbered num (k + 1) ids

variable {ws : Workspace} {num : BlockId → BlockId} {pre rest more : List (Option Block)}
  {top : List BlockId} {id c : BlockId} {B C b : Block} {link : Link}

theorem numbered_append {k : Nat} {u v : List BlockId} :
    Numbered num k (u ++ v) ↔ Numbered num k u ∧ Numbered num (k + u.length) v := by
  induction u generalizing k with
  | nil => simp [Numbered]
  | cons id u ih =>
    rw [List.cons_append, Numbered, Numbered, ih, and_assoc, List.length_cons,
      Nat.add_assoc k 1, Nat.add_comm 1]

/-! ### Edits of a listed workspace -/

theorem update_listed (f : Block → Block) :
    (listed (pre ++ some B :: rest) top).update ⟨pre.length⟩ f =
      listed (pre ++ some (f B) :: rest) top := by
  have hget : (listed (pre ++ some B :: rest) top).get? ⟨pre.length⟩ = some B := by
    simp [get?, listed]
  rw [update, hget]
  simp [put, listed]

theorem live_listed : (listed (pre ++ some B :: rest) top).Live ⟨pre.length⟩ :=
  ⟨B, by simp [get?, listed]⟩

theorem apply_alter_listed (f : Block → Block) :
    (Edit.alter ⟨pre.length⟩ f).apply (listed (pre ++ some B :: rest) top) =
      (.ok (), listed (pre ++ some (f B) :: rest) top) := by
  rw [Edit.apply_alter live_listed, update_listed]

theorem apply_add_listed (typeId : String) : (Edit.add typeId).apply (listed pre top) =
    (.ok ⟨pre.length⟩, listed (pre ++ [some { id := ⟨pre.length⟩, typeId }])
      (top ++ [⟨pre.length⟩])) := by
  have hadd : (Edit.add typeId).apply (listed pre top) =
      (.ok ⟨(listed pre top).capacity⟩, (listed pre top).added typeId) := rfl
  rw [hadd]
  simp [added, listed, capacity]

theorem filter_append_self (h : c ∉ top) : (top ++ [c]).filter (· ≠ c) = top := by
  have hkeep : top.filter (· ≠ c) = top :=
    List.filter_eq_self.mpr fun t ht => decide_eq_true fun heq : t = c => h (heq ▸ ht)
  rw [List.filter_append, hkeep]
  simp

/-- Hanging up a block, with the blocks that hang on it listed after it. -/
theorem apply_attach_listed (hc : c = ⟨(pre ++ some B :: rest).length⟩) (htop : c ∉ top) :
    (Edit.attach ⟨pre.length⟩ link c).apply
        (listed (pre ++ some B :: rest ++ some C :: more) (top ++ [c])) =
      (.ok (), listed (pre ++ some (B.withLink link c) :: rest ++
        some (C.withParent (some (⟨pre.length⟩, link))) :: more) top) := by
  have hparent (f : Block → Block) (top : List BlockId) :
      (listed (pre ++ some B :: rest ++ some C :: more) top).update ⟨pre.length⟩ f =
        listed (pre ++ some (f B) :: rest ++ some C :: more) top := by
    rw [List.append_assoc, List.append_assoc]
    exact update_listed f
  have hp : (listed (pre ++ some B :: rest ++ some C :: more) (top ++ [c])).Live ⟨pre.length⟩ := by
    rw [List.append_assoc]
    exact live_listed
  have hlive : (listed (pre ++ some B :: rest ++ some C :: more) (top ++ [c])).Live c :=
    hc ▸ live_listed
  have hc' : c = ⟨(pre ++ some (B.withLink link c) :: rest).length⟩ := by rw [hc]; simp
  have hchild (f : Block → Block) (top : List BlockId) :
      (listed (pre ++ some (B.withLink link c) :: rest ++ some C :: more) top).update c f =
        listed (pre ++ some (B.withLink link c) :: rest ++ some (f C) :: more) top := by
    nth_rewrite 2 [hc']
    exact update_listed f
  rw [Edit.apply_attach hp hlive, plug, hparent, hchild]
  exact congrArg (fun top => (Except.ok (), listed _ top)) (filter_append_self htop)

/-! ### The parts of a block -/

theorem get?_name (name : String) :
    (attributesOf [("name", name)]).get? "name" = some name := by
  simp [attributesOf, Dict.get?_insert]

theorem loadFirst_block {n : Node} (h : n.isNamed "block" = true) :
    (loadFirst "block" [n] <|> loadFirst "shadow" [n]) = some (loadBlock n) := by
  rw [loadFirst, if_pos h]
  rfl

theorem loadParts_mutation (id : BlockId) (ns : List Node) :
    loadParts id (elementOf "mutation" [("expanded", "true")] [] :: ns) =
      (Edit.alter id (fun b => { b with mode := .expanded }) >>= fun _ => loadParts id ns) := by
  rw [elementOf_eq, loadParts, if_pos rfl, if_pos (by simp [attributesOf, Dict.get?_insert])]

theorem loadParts_field (id : BlockId) (name : String) (children ns : List Node) :
    loadParts id (elementOf "field" [("name", name)] children :: ns) =
      (Edit.setField id name (contentText children) >>= fun _ => loadParts id ns) := by
  rw [elementOf_eq, loadParts, if_neg (by decide), if_pos rfl, get?_name]

theorem loadParts_input {tag : String} (htag : tag = "value" ∨ tag = "statement") (id : BlockId)
    (slot : String) {n : Node} (hn : n.isNamed "block" = true) (ns : List Node) :
    loadParts id (elementOf tag [("name", slot)] [n] :: ns) =
      (hang id (.input slot) (some (loadBlock n)) >>= fun _ => loadParts id ns) := by
  have hmutation : tag ≠ "mutation" := by rcases htag with rfl | rfl <;> decide
  have hfield : tag ≠ "field" := by rcases htag with rfl | rfl <;> decide
  rw [elementOf_eq, loadParts, if_neg hmutation, if_neg hfield, if_pos htag, get?_name]
  dsimp only
  rw [loadFirst_block hn]

theorem loadParts_next (id : BlockId) {n : Node} (hn : n.isNamed "block" = true) (ns : List Node) :
    loadParts id (elementOf "next" [] [n] :: ns) =
      (hang id .next (some (loadBlock n)) >>= fun _ => loadParts id ns) := by
  rw [elementOf_eq, loadParts, if_neg (by decide), if_neg (by decide), if_neg (by decide), if_pos rfl,
    loadFirst_block hn]

/-- Loading the element of a block adds copies of the blocks under it. -/
def Loads (ws : Workspace) (num : BlockId → BlockId) (n : Node) (id : BlockId) : Prop :=
  ∀ b below pre top, ws.get? id = some b → Preorder ws b.children below →
    (∀ t ∈ top, t.index < pre.length) → Numbered num pre.length (id :: below) →
    (loadBlock n).apply (listed pre top) =
      (.ok (num id), listed (pre ++ some ((b.renumbered num).withParent none) :: ws.copies num below)
        (top ++ [num id]))

/-- A loaded block is hung on the one whose part it is. -/
theorem apply_hang {n : Node} {below : List BlockId} (hload : Loads ws num n c)
    (hb : ws.get? c = some b) (hbelow : Preorder ws b.children below)
    (hparent : b.parent = some (id, link)) (hid : num id = ⟨pre.length⟩)
    (htop : ∀ t ∈ top, t.index ≤ pre.length)
    (hnum : Numbered num (pre ++ some B :: rest).length (c :: below)) :
    (hang ⟨pre.length⟩ link (some (loadBlock n))).apply (listed (pre ++ some B :: rest) top) =
      (.ok (), listed (pre ++ some (B.withLink link (num c)) ::
        (rest ++ ws.copies num (c :: below))) top) := by
  have hlt : ∀ t ∈ top, t.index < (pre ++ some B :: rest).length := fun t ht => by
    have := htop t ht
    simp only [List.length_append, List.length_cons]
    omega
  have hcopy : ((b.renumbered num).withParent none).withParent (some (⟨pre.length⟩, link)) =
      b.renumbered num := by
    simp [Block.renumbered, Block.withParent, hparent, hid]
  have hcopies : ws.copies num (c :: below) = some (b.renumbered num) :: ws.copies num below := by
    simp [copies, hb]
  have hnew : num c ∉ top := fun hmem => by
    have := hlt _ hmem
    rw [hnum.1] at this
    exact Nat.lt_irrefl _ this
  refine (Edit.apply_bind_ok (hload b below _ top hb hbelow hlt hnum) _).trans ?_
  rw [apply_attach_listed hnum.1 hnew, hcopy, hcopies, List.append_assoc, List.cons_append]

theorem contentText_cleaned (text : String) :
    contentText (cleanedAll [.text text]) = keptValue text := by
  rw [cleanedAll, keptValue, Node.isBlank]
  split
  · rfl
  · simp [cleanedAll, Node.cleaned, contentText, Node.ownText]

theorem apply_loadParts_fields (entries : List (String × String)) (B : Block) (ns : List Node) :
    (loadParts ⟨pre.length⟩ ((entries.map fun f =>
        elementOf "field" [("name", f.1)] (cleanedAll [.text f.2])) ++ ns)).apply
        (listed (pre ++ some B :: rest) top) =
      (loadParts ⟨pre.length⟩ ns).apply (listed (pre ++ some { B with
        fields := entries.foldl (fun d f => d.insert f.1 (keptValue f.2)) B.fields } :: rest)
          top) := by
  induction entries generalizing B with
  | nil => rfl
  | cons f entries ih =>
    rw [List.map_cons, List.cons_append, loadParts_field, contentText_cleaned]
    refine (Edit.apply_bind_ok (apply_alter_listed _) _).trans ?_
    exact ih { B with fields := B.fields.insert f.1 (keptValue f.2) }

/-- Loading the blocks in slots, one after the other. -/
theorem apply_loadParts_inputs {tag : String → String} (node : BlockId → Node)
    {entries : List (String × BlockId)} {order : List BlockId}
    (htag : ∀ slot, tag slot = "value" ∨ tag slot = "statement")
    (horder : Preorder ws (entries.map Prod.snd) order)
    (hentries : ∀ e ∈ entries, ws.parent? e.2 = some (id, .input e.1) ∧
      Loads ws num (node e.2) e.2 ∧ (node e.2).isNamed "block" = true)
    (hid : num id = ⟨pre.length⟩) (htop : ∀ t ∈ top, t.index ≤ pre.length)
    (hnum : Numbered num (pre ++ some B :: rest).length order) (ns : List Node) :
    (loadParts ⟨pre.length⟩ ((entries.map fun e =>
        elementOf (tag e.1) [("name", e.1)] [node e.2]) ++ ns)).apply
        (listed (pre ++ some B :: rest) top) =
      (loadParts ⟨pre.length⟩ ns).apply (listed (pre ++ some { B with
        inputs := entries.foldl (fun d e => d.insert e.1 (num e.2)) B.inputs } ::
          (rest ++ ws.copies num order)) top) := by
  induction entries generalizing B rest order with
  | nil =>
    cases horder
    simp [copies]
  | cons e entries ih =>
    obtain _ | @⟨_, d, _, below, order, hd, hbelow, hrest⟩ := horder
    obtain ⟨hparent, hload, hnamed⟩ := hentries e (List.mem_cons_self ..)
    rw [← List.cons_append, numbered_append] at hnum
    have hhang := apply_hang hload hd hbelow ((parent?_of_get? hd).symm.trans hparent) hid htop hnum.1
    have hlength : (pre ++ some B :: rest).length + (e.2 :: below).length =
        (pre ++ some (B.withLink (.input e.1) (num e.2)) ::
          (rest ++ ws.copies num (e.2 :: below))).length := by
      simp [copies]
      omega
    have hnext := ih hrest (fun e' he' => hentries e' (List.mem_cons_of_mem _ he'))
      (hlength ▸ hnum.2)
    rw [List.map_cons, List.cons_append, loadParts_input (htag e.1) _ _ hnamed]
    refine (Edit.apply_bind_ok hhang _).trans (hnext.trans ?_)
    simp [copies, Block.withLink]

theorem apply_loadParts_next (node : BlockId → Node) {next : Option BlockId} {order : List BlockId}
    (horder : Preorder ws next.toList order)
    (hnext : ∀ c ∈ next, ws.parent? c = some (id, .next) ∧ Loads ws num (node c) c ∧
      (node c).isNamed "block" = true)
    (hid : num id = ⟨pre.length⟩) (htop : ∀ t ∈ top, t.index ≤ pre.length)
    (hnum : Numbered num (pre ++ some B :: rest).length order) (hB : B.next = none) :
    (loadParts ⟨pre.length⟩ (next.toList.map fun c => elementOf "next" [] [node c])).apply
        (listed (pre ++ some B :: rest) top) =
      (.ok (), listed (pre ++ some { B with next := next.map num } :: (rest ++ ws.copies num order))
        top) := by
  cases next with
  | none =>
    cases horder
    have hkeep : { B with next := none } = B := by rw [← hB]
    simp [copies, loadParts, hkeep]
  | some c =>
    obtain _ | @⟨_, d, _, below, order, hd, hbelow, hrest⟩ := horder
    cases hrest
    obtain ⟨hparent, hload, hnamed⟩ := hnext c rfl
    rw [List.append_nil] at hnum ⊢
    have hhang := apply_hang hload hd hbelow ((parent?_of_get? hd).symm.trans hparent) hid htop hnum
    show (loadParts ⟨pre.length⟩ [elementOf "next" [] [node c]]).apply _ = _
    rw [loadParts_next _ hnamed]
    exact (Edit.apply_bind_ok hhang _).trans rfl

/-! ### Blocks and stacks -/

theorem cleanedAll_append (u v : List Node) :
    cleanedAll (u ++ v) = cleanedAll u ++ cleanedAll v := by
  induction u with
  | nil => rfl
  | cons n u ih =>
    rw [List.cons_append, cleanedAll, cleanedAll, ih]
    split <;> rfl

theorem cleanedAll_map_elementOf {α : Type} (tag : α → String)
    (attributes : α → List (String × String)) (children : α → List Node) (l : List α) :
    cleanedAll (l.map fun a => elementOf (tag a) (attributes a) (children a)) =
      l.map fun a => elementOf (tag a) (attributes a) (cleanedAll (children a)) := by
  induction l with
  | nil => rfl
  | cons a l ih =>
    rw [List.map_cons, cleanedAll, ih]
    rfl

variable {registry : Registry} {n : Node}

theorem Depicts.isNamed (h : Depicts registry ws id n) : n.cleaned.isNamed "block" = true := by
  cases h
  rfl

theorem Depicts.cleanedAll_singleton (h : Depicts registry ws id n) :
    cleanedAll [n] = [n.cleaned] := by
  cases h
  rfl

theorem position?_block (hb : b.Savable) (id : BlockId) :
    position? (attributesOf (blockAttributes b id b.parent.isNone)) =
      if b.parent.isNone then b.position else none := by
  cases b.parent.isNone with
  | false => simp [attributesOf, blockAttributes, position?, coordinate?, Dict.get?_insert]
  | true =>
    cases hposition : b.position with
    | none =>
      simp [attributesOf, blockAttributes, hposition, position?, coordinate?, Dict.get?_insert]
    | some p =>
      obtain ⟨hx, hy⟩ := hb.position p hposition
      have hget : (attributesOf (blockAttributes b id true)).get? "x" = some (toString p.x.toInt) ∧
          (attributesOf (blockAttributes b id true)).get? "y" = some (toString p.y.toInt) := by
        simp [attributesOf, blockAttributes, hposition, Dict.get?_insert]
      rw [position?, coordinate?_toString hget.1 hx, coordinate?_toString hget.2 hy]
      rfl

theorem get?_type (b : Block) (id : BlockId) (isTop : Bool) :
    (attributesOf (blockAttributes b id isTop)).get? "type" = some b.typeId := by
  cases isTop <;> cases hposition : b.position <;>
    simp [attributesOf, blockAttributes, hposition, Dict.get?_insert]

theorem apply_loadBlock {tag typeId : String} {attributes : Dict String} {children : List Node}
    (htype : attributes.get? "type" = some typeId) :
    (loadBlock (.element tag attributes children)).apply (listed pre top) =
      (loadParts ⟨pre.length⟩ children >>= fun _ => pure ⟨pre.length⟩ : Edit BlockId).apply
        (listed (pre ++ [some { id := ⟨pre.length⟩, typeId, position := position? attributes }])
          (top ++ [⟨pre.length⟩])) := by
  rw [loadBlock, htype]
  refine (Edit.apply_bind_ok (apply_add_listed typeId) _).trans ?_
  cases position? attributes with
  | none => rfl
  | some p => exact Edit.apply_bind_ok (apply_alter_listed _) _

theorem apply_loadParts_mutation (hB : B.mode = .compact) (mode : ArgMode) (ns : List Node) :
    (loadParts ⟨pre.length⟩ (mutationNodes mode ++ ns)).apply (listed (pre ++ some B :: rest) top) =
      (loadParts ⟨pre.length⟩ ns).apply (listed (pre ++ some { B with mode } :: rest) top) := by
  cases mode with
  | compact =>
    have hkeep : { B with mode := .compact } = B := by rw [← hB]
    rw [hkeep]
    rfl
  | expanded =>
    show (loadParts ⟨pre.length⟩ (elementOf "mutation" [("expanded", "true")] [] :: ns)).apply _ = _
    rw [loadParts_mutation]
    exact Edit.apply_bind_ok (apply_alter_listed _) _

theorem cleanedAll_parts {node : BlockId → Node}
    (hchildren : ∀ c ∈ b.children, Depicts registry ws c (node c)) :
    cleanedAll (parts registry b node) = mutationNodes b.mode ++
      ((b.fields.entries.map fun f =>
        elementOf "field" [("name", f.1)] (cleanedAll [.text f.2])) ++
      ((b.inputs.entries.map fun e =>
        elementOf (inputTag registry b e.1) [("name", e.1)] [(node e.2).cleaned]) ++
      b.next.toList.map fun c => elementOf "next" [] [(node c).cleaned])) := by
  have hmutation : cleanedAll (mutationNodes b.mode) = mutationNodes b.mode := by
    cases b.mode <;> rfl
  have hinputs : (b.inputs.entries.map fun e =>
      elementOf (inputTag registry b e.1) [("name", e.1)] (cleanedAll [node e.2])) =
        b.inputs.entries.map fun e =>
          elementOf (inputTag registry b e.1) [("name", e.1)] [(node e.2).cleaned] := by
    refine List.map_congr_left fun e he => ?_
    rw [(hchildren e.2 (List.mem_append_left _ (List.mem_map_of_mem he))).cleanedAll_singleton]
  have hnext : (b.next.toList.map fun c => elementOf "next" [] (cleanedAll [node c])) =
      b.next.toList.map fun c => elementOf "next" [] [(node c).cleaned] := by
    refine List.map_congr_left fun c hc => ?_
    rw [(hchildren c (List.mem_append_right _ hc)).cleanedAll_singleton]
  rw [parts, cleanedAll_append, cleanedAll_append, cleanedAll_append, cleanedAll_map_elementOf,
    cleanedAll_map_elementOf, cleanedAll_map_elementOf, hmutation, hinputs, hnext]

/-- The parts of a block fill the copy of the block. -/
theorem apply_loadParts_block {node : BlockId → Node} {below : List BlockId} (hf : ws.Forest)
    (hb : ws.get? id = some b) (hchildren : ∀ c ∈ b.children, Depicts registry ws c (node c))
    (hloads : ∀ c ∈ b.children, Loads ws num (node c).cleaned c)
    (hbelow : Preorder ws b.children below) (hnum : Numbered num pre.length (id :: below))
    (htop : ∀ t ∈ top, t.index ≤ pre.length) :
    (loadParts ⟨pre.length⟩ (cleanedAll (parts registry b node))).apply
        (listed (pre ++
          [some
            { id := ⟨pre.length⟩
              typeId := b.typeId
              position := if b.parent.isNone then b.position else none }]) top) =
      (.ok (), listed (pre ++ some ((b.renumbered num).withParent none) :: ws.copies num below)
        top) := by
  have hid : num id = ⟨pre.length⟩ := hnum.1
  obtain ⟨inputs, next, rfl, hinputs, hnext⟩ := hbelow.of_append
  obtain ⟨hnumIn, hnumNext⟩ := numbered_append.mp hnum.2
  have hin : ∀ e ∈ b.inputs.entries, ws.parent? e.2 = some (id, .input e.1) ∧
      Loads ws num (node e.2).cleaned e.2 ∧ (node e.2).cleaned.isNamed "block" = true := by
    intro e he
    have hmem : e.2 ∈ b.children := List.mem_append_left _ (List.mem_map_of_mem he)
    exact ⟨hf.parent?_of_mem_inputs hb he, hloads e.2 hmem, (hchildren e.2 hmem).isNamed⟩
  have hafter : ∀ c ∈ b.next, ws.parent? c = some (id, .next) ∧
      Loads ws num (node c).cleaned c ∧ (node c).cleaned.isNamed "block" = true := by
    intro c hc
    have hmem : c ∈ b.children := List.mem_append_right _ (Option.mem_toList.mpr hc)
    exact ⟨(hf.linked ..).mp ((target?_of_get? hb _).trans hc), hloads c hmem,
      (hchildren c hmem).isNamed⟩
  have htag (slot : String) :
      inputTag registry b slot = "value" ∨ inputTag registry b slot = "statement" := by
    rw [inputTag]
    split <;> simp
  rw [cleanedAll_parts hchildren, apply_loadParts_mutation rfl, apply_loadParts_fields,
    apply_loadParts_inputs (fun c => (node c).cleaned) htag hinputs hin hid htop
      (by simpa using hnumIn),
    apply_loadParts_next (fun c => (node c).cleaned) hnext hafter hid htop
      (by simpa [copies, Nat.add_assoc, Nat.add_comm 1] using hnumNext) rfl]
  simp [Block.renumbered, Block.withParent, hf.numbered id b hb, hid, copies,
    Dict.foldl_insert_map]

/-- An element that depicts a block loads as copies of the block and of all that hangs on it. -/
theorem Depicts.loads (hf : ws.Forest) (hs : ∀ b ∈ ws.live, b.Savable)
    (h : Depicts registry ws id n) : Loads ws num n.cleaned id := by
  induction h with
  | @mk id b node hb hchildren ih =>
    intro b' below pre top hb' hbelow htop hnum
    obtain rfl : b = b' := Option.some.inj (hb.symm.trans hb')
    have htop' : ∀ t ∈ top ++ [⟨pre.length⟩], t.index ≤ pre.length := by
      intro t ht
      rcases List.mem_append.mp ht with ht | ht
      · exact (htop t ht).le
      · rw [List.mem_singleton.mp ht]
    rw [hnum.1, elementOf_eq, Node.cleaned, apply_loadBlock (get?_type b id _),
      position?_block (hs b (mem_live_iff.mpr ⟨id, hb⟩))]
    exact (Edit.apply_bind_ok
      (apply_loadParts_block hf hb hchildren ih hbelow hnum htop') _).trans rfl

theorem apply_loadStacks {roots order : List BlockId} {ns : List Node} (hf : ws.Forest)
    (hs : ∀ b ∈ ws.live, b.Savable) (hall : List.Forall₂ (Depicts registry ws) roots ns)
    (hroots : ∀ r ∈ roots, ws.parent? r = none) (horder : Preorder ws roots order)
    (htop : ∀ t ∈ top, t.index < pre.length) (hnum : Numbered num pre.length order) :
    (loadStacks (ns.map Node.cleaned)).apply (listed pre top) =
      (.ok (), listed (pre ++ ws.copies num order) (top ++ roots.map num)) := by
  induction hall generalizing pre top order with
  | nil =>
    cases horder
    simp [loadStacks, copies]
  | @cons r n roots ns hdepicts _ ih =>
    obtain _ | @⟨_, b, _, below, order, hb, hbelow, hrest⟩ := horder
    rw [← List.cons_append, numbered_append] at hnum
    have hload := hdepicts.loads hf hs b below pre top hb hbelow htop hnum.1
    have hparent : b.parent = none :=
      (parent?_of_get? hb).symm.trans (hroots r (List.mem_cons_self ..))
    have hcopies : some ((b.renumbered num).withParent none) :: ws.copies num below =
        ws.copies num (r :: below) := by
      simp [copies, hb, Block.renumbered, Block.withParent, hparent]
    have hlength : pre.length + (r :: below).length = (pre ++ ws.copies num (r :: below)).length := by
      simp [copies]
    have htop' : ∀ t ∈ top ++ [num r], t.index < (pre ++ ws.copies num (r :: below)).length := by
      intro t ht
      rw [← hlength, List.length_cons]
      rcases List.mem_append.mp ht with ht | ht
      · have := htop t ht
        omega
      · rw [List.mem_singleton.mp ht, hnum.1.1]
        exact Nat.lt_add_of_pos_right (Nat.succ_pos _)
    have hnext := ih (fun r hr => hroots r (List.mem_cons_of_mem _ hr)) hrest htop' (hlength ▸ hnum.2)
    rw [hcopies] at hload
    rw [List.map_cons, loadStacks, if_pos (by rw [hdepicts.isNamed]; rfl)]
    refine (Edit.apply_bind_ok hload _).trans (hnext.trans ?_)
    simp [copies]

theorem numbered_idxOf {order u v : List BlockId} (horder : order = u ++ v) (h : order.Nodup) :
    Numbered (fun id => ⟨order.idxOf id⟩) u.length v := by
  induction v generalizing u with
  | nil => trivial
  | cons id v ih =>
    have hid : id ∉ u := fun hmem =>
      (List.nodup_append.mp (horder ▸ h)).2.2 id hmem id (List.mem_cons_self ..) rfl
    have hrest := ih (u := u ++ [id]) (by simpa using horder)
    rw [List.length_append] at hrest
    refine ⟨congrArg BlockId.mk ?_, hrest⟩
    rw [horder, List.idxOf_append_of_notMem hid, List.idxOf_cons_self, Nat.add_zero]

theorem tidy_of_depicts {roots : List BlockId} {ns : List Node} (hs : ∀ b ∈ ws.live, b.Savable)
    (hall : List.Forall₂ (Depicts registry ws) roots ns) : ∀ n ∈ ns, Tidy n := by
  induction hall with
  | nil => simp
  | cons hdepicts _ ih =>
    intro n hn
    rcases List.mem_cons.mp hn with rfl | hn
    · exact hdepicts.tidy hs
    · exact ih n hn

/-- The tree of a forest can be written, and it loads as the same forest with its blocks numbered as
they stand in the tree. What is read from a text is the tree without its texts of white space. -/
theorem Forest.ofNode_toNode (hf : ws.Forest) (hs : ∀ b ∈ ws.live, b.Savable) (registry : Registry) :
    ∃ root order, ws.toNode registry = .ok root ∧ Tidy root ∧ Preorder ws ws.topBlocks order ∧
      order.Nodup ∧ (∀ id, id ∈ order ↔ ws.Live id) ∧
      ofNode root.cleaned = .ok (ws.renumbered order) := by
  have htop : ∀ r ∈ ws.topBlocks, r ∈ ws.top := fun r hr => mem_topBlocks.mp hr
  obtain ⟨ns, hns, hall⟩ : ∃ ns, stackNodes registry ws ws.topBlocks = .ok ns ∧
      List.Forall₂ (Depicts registry ws) ws.topBlocks ns := hf.stackNodes_ok htop
  obtain ⟨order, horder, hnodup, hmem⟩ := hf.exists_preorder
  have htidy : ∀ n ∈ ns, Tidy n := tidy_of_depicts hs hall
  have hstacks : (loadStacks (ns.map Node.cleaned)).apply (listed [] []) =
      (.ok (), ws.renumbered order) :=
    apply_loadStacks hf hs hall (fun r hr => ((hf.mem_top r).mp (htop r hr)).2) horder (by simp)
      (numbered_idxOf (List.nil_append order).symm hnodup)
  refine ⟨elementOf "xml" [] ns, order, by rw [toNode, hns]; rfl,
    .elements (tidyTag_of_list (by decide +kernel) (by simp)) htidy, horder, hnodup, hmem, ?_⟩
  show ofNode (.element "xml" _ (cleanedAll ns)) = _
  rw [cleanedAll_of_tidy htidy, ofNode, show empty = listed [] [] from rfl, hstacks]

/-- The same through the text of the document. -/
theorem Forest.load_save (hf : ws.Forest) (hs : ∀ b ∈ ws.live, b.Savable) (registry : Registry) :
    ∃ text order, ws.save registry = .ok text ∧ Preorder ws ws.topBlocks order ∧ order.Nodup ∧
      (∀ id, id ∈ order ↔ ws.Live id) ∧ load text = .ok (ws.renumbered order) := by
  obtain ⟨root, order, hroot, htidy, horder, hnodup, hmem, hload⟩ := hf.ofNode_toNode hs registry
  refine ⟨root.render 0, order, by rw [save, hroot]; rfl, horder, hnodup, hmem, ?_⟩
  rw [load, parse?_render htidy]
  exact hload

/-- A workspace that was made by edits, saved and loaded is the same workspace with its blocks
numbered as they are written. -/
theorem load_save_renumbers (registry registry' : Registry) (ops : List Operation)
    (hs : ∀ b ∈ (after registry ops).live, b.Savable) :
    let ws := after registry ops
    ∃ text order, ws.save registry' = .ok text ∧ Preorder ws ws.topBlocks order ∧ order.Nodup ∧
      (∀ id, id ∈ order ↔ ws.Live id) ∧ load text = .ok (ws.renumbered order) :=
  (after_forest registry ops).load_save hs registry'

/-- A chain in a body slot, with a text that is white space, a text of marks, and a place that is
lost. -/
def chainHistory : List Operation :=
  [.add "python_number", .add "python_if", .add "python_print", .add "python_assign",
    .setField ⟨0⟩ "NUM" "]]> & '1'", .setField ⟨3⟩ "VAR" " \n", .setPosition ⟨0⟩ ⟨1, 1⟩,
    .setPosition ⟨1⟩ ⟨-7, 9007199254740992⟩, .connectInput ⟨2⟩ "VALUE" ⟨0⟩,
    .connectInput ⟨1⟩ "DO0" ⟨2⟩, .connectNext ⟨2⟩ ⟨3⟩]

theorem load_save_renumbers_chain :
    let registry := Registry.empty.registerAll (Catalogue.values ++ Catalogue.controlFlow)
    let ws := after registry chainHistory
    (∀ b ∈ ws.live, b.Savable) ∧ ws.top = [⟨1⟩] ∧
    ∃ text order, ws.save registry = .ok text ∧ Preorder ws ws.topBlocks order ∧
      order.Nodup ∧ (∀ id, id ∈ order ↔ ws.Live id) ∧ load text = .ok (ws.renumbered order) := by
  intro registry ws
  have hs : (∀ b ∈ ws.live, b.Savable) ∧ ws.top = [⟨1⟩] := by decide +kernel
  exact ⟨hs.1, hs.2, load_save_renumbers registry registry chainHistory hs.1⟩

end Workspace

end Blockwright
