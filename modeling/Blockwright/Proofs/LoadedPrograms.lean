import Blockwright.Catalogue.Library
import Blockwright.Proofs.Hanging
import Blockwright.Proofs.Saving
import Blockwright.Proofs.Traversal

/-!
# Programs of loaded documents

Loading makes no check of shapes and lets a link be filled twice, so a loaded workspace need not be a
forest. But a block is loaded after the one that it hangs on: links lead to live blocks of higher
numbers (`Workspace.Onward`). So the walk never comes back to a block and never misses one, and it stops
only at a type that is not registered or at a block without a value where one is read
(`Compiler.Accounts`). A workspace with such links can be saved.

Main statement: `Workspace.load_program_accounted`.
-/

namespace Blockwright

/-- What a slot is read as fails for a reason in the block that is plugged there. -/
theorem Block.read_fault {b : Block} {emit : BlockId → Except Fault Emission}
    {chain : BlockId → Except Fault String} {kind : Reading} {slot : String} {fault : Fault}
    (h : b.read emit chain (kind, slot) = .error fault) :
    ∃ child, b.inputs.get? slot = some child ∧
      (emit child = .error fault ∨ chain child = .error fault ∨
        ∃ code, emit child = .ok (.statement code) ∧
          fault = .mismatch b.id child slot .noOutput) := by
  cases hc : b.inputs.get? slot with
  | none => cases kind <;> simp only [read, hc] at h <;> cases h
  | some child =>
    refine ⟨child, rfl, ?_⟩
    cases kind with
    | value =>
      simp only [read, hc] at h
      cases he : emit child with
      | error e =>
        rw [he] at h
        cases h
        exact .inl rfl
      | ok e =>
        rw [he] at h
        cases e with
        | expression code produced => cases h
        | statement code =>
          cases h
          exact .inr (.inr ⟨code, rfl, rfl⟩)
    | body =>
      simp only [read, hc] at h
      cases hs : chain child with
      | error e =>
        rw [hs] at h
        cases h
        exact .inr (.inl rfl)
      | ok code =>
        rw [hs] at h
        cases h

namespace Workspace

variable {ws : Workspace} {registry : Registry} {id : BlockId}

/-- Links lead to live blocks of higher numbers. -/
def Onward (ws : Workspace) : Prop :=
  ∀ p link c, ws.target? p link = some c → ws.Live c ∧ p.index < c.index

theorem Hung.onward (h : ws.Hung) : ws.Onward := by
  intro p link c ht
  have hparent := h.linked p link c ht
  exact ⟨live_of_parent? hparent, h.older p link c hparent⟩

end Workspace

namespace Compiler

open Workspace

variable {c : Compiler} {fault : Fault}

/-! ### Faults of programs -/

/-- The blocks and the registry account for a fault: a live block has a type that is not registered,
or a statement is plugged in where a value is read. -/
inductive Accounts (c : Compiler) : Fault → Prop
  | unregistered {id : BlockId} {b : Block} (hb : c.workspace.get? id = some b)
      (hd : c.registry.lookup? b.typeId = none) : Accounts c (.unknownType b.typeId)
  | noOutput {p child : BlockId} {slot code : String}
      (hlink : c.workspace.target? p (.input slot) = some child)
      (hcode : c.emit child = .ok (.statement code)) :
      Accounts c (.mismatch p child slot .noOutput)

/-- Along links that lead onwards the blocks met before have lower numbers than those to come. -/
theorem walk_accounted (h : c.workspace.Onward)
    (hnumbered : ∀ id b, c.workspace.get? id = some b → b.id = id) :
    (∀ active id, c.workspace.Live id → (∀ a ∈ active, a.index < id.index) → ∀ fault,
      c.emitIn silent active id = .error fault → c.Accounts fault) ∧
    ∀ active seen id, c.workspace.Live id → (∀ a ∈ active, a.index < id.index) →
      (∀ a ∈ seen, a.index < id.index) → ∀ fault,
      c.chainIn silent active seen id = .error fault → c.Accounts fault := by
  have hnew : ∀ (met : List BlockId) (id : BlockId), (∀ a ∈ met, a.index < id.index) → id ∉ met :=
    fun met id hmet hid => Nat.lt_irrefl _ (hmet id hid)
  have hcons : ∀ {met : List BlockId} {id child : BlockId}, id.index < child.index →
      (∀ a ∈ met, a.index < id.index) → ∀ a ∈ id :: met, a.index < child.index :=
    fun hlt hmet => List.forall_mem_cons.mpr ⟨hlt, fun a ha => (hmet a ha).trans hlt⟩
  apply walk_induction (c := c)
  · intro active id ih hid hactive fault hfault
    obtain ⟨b, hb⟩ := hid
    obtain ⟨ihemit, ihchain⟩ := ih ⟨b, hb⟩ (hnew active id hactive)
    rw [emitIn_eq, if_neg (hnew active id hactive), hb] at hfault
    cases hd : c.registry.lookup? b.typeId with
    | none =>
      simp only [hd] at hfault
      cases hfault
      exact .unregistered hb hd
    | some d =>
      have hread : d.rule.reads.mapM (b.read (c.emitIn silent (id :: active))
          (c.chainIn silent (id :: active) [])) = .error fault := by
        simp only [hd] at hfault
        cases hread : d.rule.reads.mapM (b.read (c.emitIn silent (id :: active))
          (c.chainIn silent (id :: active) [])) with
        | error e => rw [hread] at hfault; cases hfault; rfl
        | ok answers => rw [hread] at hfault; cases hfault
      obtain ⟨⟨kind, slot⟩, -, hslot⟩ := mapM_error hread
      obtain ⟨child, hchild, hcause⟩ := Block.read_fault hslot
      have ht : c.workspace.target? id (.input slot) = some child :=
        (target?_of_get? hb (.input slot)).trans hchild
      obtain ⟨hlive, hlt⟩ := h id (.input slot) child ht
      rcases hcause with he | hs | ⟨code, he, rfl⟩
      · exact ihemit child hlive (hcons hlt hactive) fault he
      · exact ihchain child hlive (hcons hlt hactive) (by simp) fault hs
      · rw [hnumbered id b hb]
        have hcode : c.emit child = .ok (.statement code) := by
          rw [emit_eq_emitIn]
          exact walk_mono.1 _ child [] (List.nil_subset _) _ he
        exact .noOutput ht hcode
  · intro active seen id ihemit ih hid hactive hseen fault hfault
    obtain ⟨b, hb⟩ := hid
    have ihnext := ih ⟨b, hb⟩ (hnew seen id hseen)
    rw [chainIn_eq, if_neg (hnew seen id hseen), hb] at hfault
    cases he : c.emitIn silent active id with
    | error e =>
      rw [he] at hfault
      cases hfault
      exact ihemit ⟨b, hb⟩ hactive _ he
    | ok e =>
      rw [he] at hfault
      cases hn : b.next with
      | none =>
        simp only [hn] at hfault
        cases hfault
      | some next =>
        obtain ⟨hlive, hlt⟩ := h id .next next ((target?_of_get? hb .next).trans hn)
        cases hrest : c.chainIn silent active (id :: seen) next with
        | error e =>
          simp only [hn, hrest] at hfault
          cases hfault
          exact ihnext next hlive (fun a ha => (hactive a ha).trans hlt) (hcons hlt hseen) _ hrest
        | ok rest =>
          simp only [hn, hrest] at hfault
          cases hfault

theorem program_accounted (h : c.workspace.Hung) (hfault : c.program = .error fault) :
    c.Accounts fault := by
  rw [program] at hfault
  rcases stackTexts_cases c c.workspace.topBlocks with
    ⟨codes, htexts, -⟩ | ⟨before, root, after, e, htexts, hroots, -, hroot⟩
  · rw [htexts] at hfault
    cases hfault
  · rw [htexts] at hfault
    cases hfault
    have htop : root ∈ c.workspace.topBlocks := by simp [hroots]
    obtain ⟨hlive, -⟩ := (h.mem_top root).mp (mem_topBlocks.mp htop)
    rw [chain_eq_chainIn] at hroot
    exact (walk_accounted h.onward h.numbered).2 [] [] root hlive (by simp) (by simp) _ hroot

end Compiler

namespace Workspace

variable {ws : Workspace} {registry : Registry} {id : BlockId}

/-! ### Saving -/

theorem Onward.blockNode_ok (h : ws.Onward) (registry : Registry) {fuel : Nat} (isTop : Bool)
    (hid : ws.Live id) (hfuel : ws.capacity - id.index ≤ fuel) :
    ∃ n, blockNode registry ws fuel isTop id = .ok n := by
  induction fuel generalizing id isTop with
  | zero =>
    have hlt := hid.lt_capacity
    omega
  | succ fuel ih =>
    obtain ⟨b, hb⟩ := hid
    have hchild : ∀ child, ∃ n, child ∈ b.children →
        blockNode registry ws fuel false child = .ok n := by
      intro child
      by_cases hmem : child ∈ b.children
      · obtain ⟨link, hlink⟩ := (linkTo_iff hb).mpr hmem
        obtain ⟨hlive, hlt⟩ := h id link child hlink
        obtain ⟨n, hn⟩ := ih false hlive (by omega)
        exact ⟨n, fun _ => hn⟩
      · exact ⟨.text "", fun hc => absurd hc hmem⟩
    choose node hnode using hchild
    have hinputs : ∀ e ∈ b.inputs.entries,
        blockNode registry ws fuel false e.2 = .ok (node e.2) := fun e he =>
      hnode e.2 (List.mem_append_left _ (List.mem_map_of_mem he))
    have hnext : ∀ next ∈ b.next, blockNode registry ws fuel false next = .ok (node next) :=
      fun next hn => hnode next (List.mem_append_right _ (Option.mem_toList.mpr hn))
    simp only [blockNode, get_of_get? hb, bind, Except.bind, inputNodes_eq hinputs,
      nextNodes_eq hnext]
    exact ⟨_, rfl⟩

theorem Onward.stackNodes_ok (h : ws.Onward) (registry : Registry) {roots : List BlockId}
    (hroots : ∀ r ∈ roots, ws.Live r) : ∃ ns, stackNodes registry ws roots = .ok ns := by
  induction roots with
  | nil => exact ⟨[], rfl⟩
  | cons root roots ih =>
    obtain ⟨hroot, hrest⟩ := List.forall_mem_cons.mp hroots
    obtain ⟨n, hn⟩ := h.blockNode_ok registry true hroot (Nat.sub_le ..)
    obtain ⟨ns, hns⟩ := ih hrest
    rw [stackNodes, hn, hns]
    exact ⟨_, rfl⟩

theorem Hung.save_ok (h : ws.Hung) (registry : Registry) : ∃ saved, save registry ws = .ok saved := by
  have hroots : ∀ r ∈ ws.topBlocks, ws.Live r := fun r hr =>
    ((h.mem_top r).mp (mem_topBlocks.mp hr)).1
  obtain ⟨ns, hns⟩ := h.onward.stackNodes_ok registry hroots
  rw [save, toNode, hns]
  exact ⟨_, rfl⟩

/-! ### Loaded documents -/

theorem load_hung {text : String} (h : load text = .ok ws) : ws.Hung := by
  rw [load] at h
  cases hparse : Markup.Node.parse? text with
  | none => rw [hparse] at h; cases h
  | some root =>
    rw [hparse] at h
    exact (ofNode_loaded h).1

/-- The workspace of any document that can be loaded, under any registry: it has a program, or a live
block of a type that is not registered or a statement in the place of a value stands in the way; and
it can be saved. -/
theorem load_program_accounted (text : String) (ws : Workspace) (h : load text = .ok ws)
    (registry : Registry) (options : Options) :
    let c : Compiler := ⟨registry, ws, options⟩
    ((∃ code, c.program = .ok code) ∨
      (∃ typeId, c.program = .error (.unknownType typeId) ∧ registry.lookup? typeId = none ∧
        ∃ id b, ws.get? id = some b ∧ b.typeId = typeId) ∨
      ∃ p child slot code, c.program = .error (.mismatch p child slot .noOutput) ∧
        ws.target? p (.input slot) = some child ∧ c.emit child = .ok (.statement code)) ∧
    ∃ saved, save registry ws = .ok saved := by
  intro c
  have hung := load_hung h
  refine ⟨?_, hung.save_ok registry⟩
  cases hprogram : c.program with
  | ok code => exact .inl ⟨code, rfl⟩
  | error fault =>
    cases Compiler.program_accounted (c := c) hung hprogram with
    | @unregistered id b hb hd => exact .inr (.inl ⟨b.typeId, rfl, hd, id, b, hb, rfl⟩)
    | @noOutput p child slot code hlink hcode =>
      exact .inr (.inr ⟨p, child, slot, code, rfl, hlink, hcode⟩)

/-- A document that fills a slot twice, and so gives no forest. -/
theorem load_program_accounted_repeated :
    let c : Compiler := ⟨Registry.stock, repeatedSlot, {}⟩
    load repeatedText = .ok repeatedSlot ∧
    ((∃ code, c.program = .ok code) ∨
      (∃ typeId, c.program = .error (.unknownType typeId) ∧ Registry.stock.lookup? typeId = none ∧
        ∃ id b, repeatedSlot.get? id = some b ∧ b.typeId = typeId) ∨
      ∃ p child slot code, c.program = .error (.mismatch p child slot .noOutput) ∧
        repeatedSlot.target? p (.input slot) = some child ∧ c.emit child = .ok (.statement code)) ∧
    ∃ saved, save Registry.stock repeatedSlot = .ok saved := by
  intro c
  exact ⟨load_repeatedText, load_program_accounted repeatedText repeatedSlot load_repeatedText _ _⟩

end Workspace

end Blockwright
