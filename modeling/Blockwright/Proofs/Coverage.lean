import Blockwright.Proofs.Preorder
import Blockwright.Proofs.Registration
import Blockwright.Proofs.Totality
import Blockwright.Proofs.Traversal

/-!
# Which blocks the walk emits

A walk that keeps a log (`Logged`) has the code of the walk without one (`Compiler.walk_erases`),
and over a forest its log holds the blocks that it meets, each once (`Compiler.walk_logs`). It meets
all that hangs in slots, since the rules that can be registered read all of them
(`Definition.Complete`), but from a block in a value slot it never goes on to the next one. So a
program leaves out what comes behind such a block and nothing else: `Workspace.program_emits_once`.
-/

namespace Blockwright

/-! ### Rules that read all slots -/

/-- The slots that are read so. -/
def Reading.kind : Reading → SlotKind
  | value => .value
  | body => .body

/-- A rule that reads the slots for blocks, all of them, each once and as what it is. -/
structure Definition.Complete (d : Definition) : Prop where
  reads : ∀ (r : Reading) (name : String),
    (r, name) ∈ d.rule.reads ↔ (d.schema.slot? name).map Slot.kind = some r.kind
  nodup : d.rule.reads.Nodup

namespace Definition

variable {d : Definition}

theorem complete_of_slots
    (hread : ∀ x ∈ d.rule.reads, (d.schema.slot? x.2).map Slot.kind = some x.1.kind)
    (hvalue : ∀ s ∈ d.schema.slots, s.kind = .value → (.value, s.name) ∈ d.rule.reads)
    (hbody : ∀ s ∈ d.schema.slots, s.kind = .body → (.body, s.name) ∈ d.rule.reads)
    (hnodup : d.rule.reads.Nodup) : d.Complete := by
  refine ⟨fun r name => ⟨hread (r, name), fun h => ?_⟩, hnodup⟩
  obtain ⟨s, hs, hkind⟩ := Option.map_eq_some_iff.mp h
  have hname : s.name = name := by simpa using List.find?_some hs
  have hmem := List.mem_of_find?_eq_some hs
  subst hname
  cases r with
  | value => exact hvalue s hmem hkind
  | body => exact hbody s hmem hkind

theorem Complete.eq_of_snd (h : d.Complete) {x y : Reading × String} (hx : x ∈ d.rule.reads)
    (hy : y ∈ d.rule.reads) (hname : x.2 = y.2) : x = y := by
  obtain ⟨r, name⟩ := x
  obtain ⟨r', name'⟩ := y
  obtain rfl : name = name' := hname
  have hkind := ((h.reads r name).mp hx).symm.trans ((h.reads r' name).mp hy)
  cases r <;> cases r' <;> first | rfl | cases hkind

end Definition

theorem Catalogue.complete_of_mem_all : ∀ d ∈ Catalogue.all, d.Complete := by
  have hslots : ∀ d ∈ Catalogue.all,
      (∀ x ∈ d.rule.reads, (d.schema.slot? x.2).map Slot.kind = some x.1.kind) ∧
      (∀ s ∈ d.schema.slots, s.kind = .value → (.value, s.name) ∈ d.rule.reads) ∧
      (∀ s ∈ d.schema.slots, s.kind = .body → (.body, s.name) ∈ d.rule.reads) ∧
      d.rule.reads.Nodup := by decide +kernel
  intro d hd
  obtain ⟨hread, hvalue, hbody, hnodup⟩ := hslots d hd
  exact Definition.complete_of_slots hread hvalue hbody hnodup

theorem socketSlot_injective : Function.Injective socketSlot := append_toString_injective "IN"

theorem argsField_ne_socketSlot (i : Nat) : argsField ≠ socketSlot i := by
  intro h
  have hhead := congrArg (fun s => s.toList.head?) h
  simp [argsField, socketSlot] at hhead

theorem Definition.complete_call {d : Definition} {call : CallRule} (typeId : String)
    (shape : Shape) (hrule : d.rule = .call call)
    (hslots : d.schema.slots = (call.schema typeId shape).slots) :
    d.Complete := by
  have hreads : d.rule.reads =
      (List.range call.params.length).map fun i => (Reading.value, socketSlot i) := by rw [hrule]; rfl
  rw [CallRule.slots_schema] at hslots
  have hslot : ∀ s ∈ d.schema.slots, (s.name = argsField ∧ s.kind = .literal .text) ∨
      s.kind = .value ∧ (.value, s.name) ∈ d.rule.reads := by
    intro s hs
    rw [hslots] at hs
    rcases List.mem_append.mp hs with hs | hs
    · split at hs
      · rw [List.mem_singleton.mp hs]; exact .inl ⟨rfl, rfl⟩
      · cases hs
    · obtain ⟨i, hi, rfl⟩ := List.mem_map.mp hs
      exact .inr ⟨rfl, hreads ▸ List.mem_map_of_mem hi⟩
  refine complete_of_slots ?_ ?_ ?_ ?_
  · rw [hreads]
    rintro x hx
    obtain ⟨i, hi, rfl⟩ := List.mem_map.mp hx
    have hfound : (d.schema.slot? (socketSlot i)).isSome := by
      rw [Schema.slot?, List.find?_isSome, hslots]
      exact ⟨_, List.mem_append_right _ (List.mem_map_of_mem hi), by simp⟩
    obtain ⟨s, hs⟩ := Option.isSome_iff_exists.mp hfound
    have hname : s.name = socketSlot i := by simpa using List.find?_some hs
    rcases hslot s (List.mem_of_find?_eq_some hs) with ⟨hargs, -⟩ | ⟨hkind, -⟩
    · exact absurd (hargs.symm.trans hname) (argsField_ne_socketSlot i)
    · rw [hs, Option.map_some, hkind]; rfl
  · intro s hs hkind
    rcases hslot s hs with ⟨-, hliteral⟩ | ⟨-, hmem⟩
    · rw [hkind] at hliteral; cases hliteral
    · exact hmem
  · intro s hs hkind
    rcases hslot s hs with ⟨-, hliteral⟩ | ⟨hvalue, -⟩
    · rw [hkind] at hliteral; cases hliteral
    · rw [hkind] at hvalue; cases hvalue
  · rw [hreads]
    exact List.Nodup.map (fun i j h => socketSlot_injective (Prod.mk.inj h).2) List.nodup_range

theorem Registry.Origin.complete {d : Definition} (h : Origin d) : d.Complete := by
  cases h with
  | stock h => exact Catalogue.complete_of_mem_all d h
  | caller c typeId shape => exact Definition.complete_call typeId shape rfl rfl
  | @member m limits member h typeId =>
    rcases Synthesis.definition_cases h typeId with ⟨call, hrule, hslots⟩ | ⟨text, hrule, hslots⟩
    · exact Definition.complete_call typeId member.shape hrule hslots
    · have hreads : (member.definition typeId m.name).rule.reads = [] := by rw [hrule]; rfl
      apply Definition.complete_of_slots <;> simp [hreads, hslots]

theorem Registry.complete_of_lookup?_grown {digest : String → String} {growth : List Growth}
    {t : String} {d : Definition} (h : (stock.grown digest growth).lookup? t = some d) :
    d.Complete :=
  (mem_grown digest growth d (mem_of_lookup? h)).complete

/-! ### The walk with a log -/

/-- Code with a log of the blocks that were emitted for it. -/
abbrev Logged := StateT (List BlockId) (Except Fault)

namespace Logged

variable {α β : Type} {x : Logged α} {f : α → Logged β} {log log' : List BlockId}

/-- Adds a block to the log. -/
def note (id : BlockId) : Logged Unit := modify (· ++ [id])

/-- The code of `x` is `y`, whatever is in the log. -/
def Erases (x : Logged α) (y : Except Fault α) : Prop := ∀ log, Prod.fst <$> x.run log = y

namespace Erases

theorem pure (a : α) : Erases (pure a) (.ok a) := fun _ => rfl

theorem throw (fault : Fault) : Erases (throw fault : Logged α) (.error fault) := fun _ => rfl

theorem note (id : BlockId) : Erases (note id) (.ok ()) := fun _ => rfl

theorem bind {y : Except Fault α} {g : α → Except Fault β} (hx : Erases x y)
    (hf : ∀ a, Erases (f a) (g a)) : Erases (x >>= f) (y >>= g) := by
  intro log
  rw [StateT.run_bind, ← hx log]
  cases x.run log with
  | error fault => rfl
  | ok r => exact hf r.1 r.2

theorem mapM {xs : List α} {g : α → Except Fault β} (hf : ∀ a ∈ xs, Erases (f a) (g a)) :
    Erases (xs.mapM f) (xs.mapM g) := by
  induction xs with
  | nil => exact pure []
  | cons a xs ih =>
    rw [List.mapM_cons, List.mapM_cons]
    refine bind (hf a (List.mem_cons_self ..)) fun b => ?_
    exact bind (ih fun c hc => hf c (List.mem_cons_of_mem _ hc)) fun bs => pure _

theorem read {b : Block} {emit : BlockId → Logged Emission} {chain : BlockId → Logged String}
    {emit' : BlockId → Except Fault Emission} {chain' : BlockId → Except Fault String}
    (hemit : ∀ j, Erases (emit j) (emit' j)) (hchain : ∀ j, Erases (chain j) (chain' j))
    (slot : Reading × String) : Erases (b.read emit chain slot) (b.read emit' chain' slot) := by
  obtain ⟨kind, name⟩ := slot
  cases kind with
  | value =>
    simp only [Block.read]
    cases b.inputs.get? name with
    | none => exact pure _
    | some child =>
      refine bind (hemit child) fun e => ?_
      cases e with
      | statement code => exact throw _
      | expression code produced => exact pure _
  | body =>
    simp only [Block.read]
    cases b.inputs.get? name with
    | none => exact pure _
    | some head => exact bind (hchain head) fun code => pure _

end Erases

/-- A run of `x` that comes to an end adds blocks as `R` says. -/
def Logs (x : Logged α) (R : List BlockId → Prop) : Prop :=
  ∀ log a log', x.run log = .ok (a, log') → ∃ l, log' = log ++ l ∧ R l

namespace Logs

variable {R S T : List BlockId → Prop}

theorem pure {a : α} (h : R []) : Logs (pure a) R := by
  intro log a' log' hrun
  cases hrun
  exact ⟨[], (List.append_nil _).symm, h⟩

theorem throw (fault : Fault) : Logs (throw fault : Logged α) R := fun _ _ _ hrun => nomatch hrun

theorem note {id : BlockId} (h : R [id]) : Logs (note id) R := by
  intro log a log' hrun
  cases hrun
  exact ⟨[id], rfl, h⟩

theorem bind (hx : Logs x R) (hf : ∀ a, Logs (f a) S) (h : ∀ l l', R l → S l' → T (l ++ l')) :
    Logs (x >>= f) T := by
  intro log b log' hrun
  rw [StateT.run_bind] at hrun
  cases hrun' : x.run log with
  | error fault => rw [hrun'] at hrun; cases hrun
  | ok r =>
    obtain ⟨a, mid⟩ := r
    rw [hrun'] at hrun
    obtain ⟨l, rfl, hl⟩ := hx log a mid hrun'
    obtain ⟨l', rfl, hl'⟩ := hf a (log ++ l) b log' hrun
    exact ⟨l ++ l', List.append_assoc .., h l l' hl hl'⟩

theorem mono (hx : Logs x R) (h : ∀ l, R l → S l) : Logs x S := by
  intro log a log' hrun
  obtain ⟨l, hl, hR⟩ := hx log a log' hrun
  exact ⟨l, hl, h l hR⟩

theorem bind_silent (hx : Logs x R) (hf : ∀ a, Logs (f a) (· = [])) : Logs (x >>= f) R := by
  refine bind hx hf ?_
  rintro l _ hl rfl
  rwa [List.append_nil]

theorem mapM {xs : List α} {R : α → List BlockId → Prop} (hf : ∀ a ∈ xs, Logs (f a) (R a)) :
    Logs (xs.mapM f) fun l => ∃ ls, List.Forall₂ R xs ls ∧ l = ls.flatten := by
  induction xs with
  | nil => exact pure ⟨[], .nil, rfl⟩
  | cons a xs ih =>
    rw [List.mapM_cons]
    have hrest := ih fun c hc => hf c (List.mem_cons_of_mem _ hc)
    refine bind (hf a (List.mem_cons_self ..)) (fun b => bind_silent hrest fun bs => pure rfl) ?_
    rintro l _ hl ⟨ls, hls, rfl⟩
    exact ⟨l :: ls, .cons hl hls, rfl⟩

theorem read {b : Block} {emit : BlockId → Logged Emission} {chain : BlockId → Logged String}
    {R : Reading × BlockId → List BlockId → Prop} (hemit : ∀ j, Logs (emit j) (R (.value, j)))
    (hchain : ∀ j, Logs (chain j) (R (.body, j))) (slot : Reading × String) :
    Logs (b.read emit chain slot) fun l =>
      match b.inputs.get? slot.2 with
      | none => l = []
      | some child => R (slot.1, child) l := by
  obtain ⟨kind, name⟩ := slot
  cases kind with
  | value =>
    simp only [Block.read]
    cases b.inputs.get? name with
    | none => exact pure rfl
    | some child =>
      refine bind_silent (hemit child) fun e => ?_
      cases e with
      | statement code => exact throw _
      | expression code produced => exact pure rfl
  | body =>
    simp only [Block.read]
    cases b.inputs.get? name with
    | none => exact pure rfl
    | some head => exact bind_silent (hchain head) fun code => pure rfl

end Logs

end Logged

/-! ### Lists without repetition -/

/-- The list holds what satisfies `P`, each once. -/
def Once {α : Type} (P : α → Prop) (l : List α) : Prop := l.Nodup ∧ ∀ a, a ∈ l ↔ P a

namespace Once

variable {α β : Type} {P Q : α → Prop} {l l' : List α}

theorem congr (h : Once P l) (hPQ : ∀ a, P a ↔ Q a) : Once Q l :=
  ⟨h.1, fun a => (h.2 a).trans (hPQ a)⟩

theorem nil (h : ∀ a, ¬ P a) : Once P [] := ⟨List.nodup_nil, fun a => by simp [h a]⟩

theorem singleton (a : α) : Once (· = a) [a] := ⟨List.nodup_singleton a, fun _ => List.mem_singleton⟩

theorem append (h : Once P l) (h' : Once Q l') (hapart : ∀ a, P a → ¬ Q a) :
    Once (fun a => P a ∨ Q a) (l ++ l') := by
  refine ⟨List.nodup_append.mpr ⟨h.1, h'.1, ?_⟩, fun a => ?_⟩
  · rintro a ha _ ha' rfl
    exact hapart a ((h.2 a).mp ha) ((h'.2 a).mp ha')
  · rw [List.mem_append, h.2, h'.2]

theorem flatten {xs : List β} {ls : List (List α)} {S : β → α → Prop}
    (h : List.Forall₂ (fun x l => Once (S x) l) xs ls)
    (hapart : xs.Pairwise fun x y => ∀ a, S x a → ¬ S y a) :
    Once (fun a => ∃ x ∈ xs, S x a) ls.flatten := by
  induction h with
  | nil => exact nil (by simp)
  | cons hx _ ih =>
    obtain ⟨hhead, hrest⟩ := List.pairwise_cons.mp hapart
    refine (append hx (ih hrest) ?_).congr fun a => by simp
    rintro a ha ⟨y, hy, hya⟩
    exact hhead y hy a ha hya

end Once

/-- Blocks that hang on one block and are both above another are the same. -/
theorem Workspace.Forest.eq_of_siblings {ws : Workspace} (hf : ws.Forest) {p a b j : BlockId}
    {link link' : Link} (ha : ws.parent? a = some (p, link)) (hb : ws.parent? b = some (p, link'))
    (haj : ws.AboveEq a j) (hbj : ws.AboveEq b j) : a = b := by
  have hapart : ∀ x y k l, ws.parent? x = some (p, k) → ws.parent? y = some (p, l) →
      ¬ ws.Above x y := by
    intro x y k l hx hy hxy
    exact hf.acyclic x ((above_iff_of_parent? hx).mpr ((above_iff_of_parent? hy).mp hxy))
  rcases haj.total hbj with h | h
  · exact (aboveEq_iff.mp h).resolve_right (hapart _ _ _ _ ha hb)
  · exact ((aboveEq_iff.mp h).resolve_right (hapart _ _ _ _ hb ha)).symm

namespace Compiler

open Workspace Logged

variable {c : Compiler} {id j : BlockId} {x : Reading × BlockId}

/-- The log of a walk changes nothing of its code. -/
theorem walk_erases :
    (∀ active id, Erases (c.emitIn note active id) (c.emitIn silent active id)) ∧
    ∀ active seen id, Erases (c.chainIn note active seen id) (c.chainIn silent active seen id) := by
  apply walk_induction (c := c)
  · intro active id ih
    rw [emitIn_eq, emitIn_eq]
    refine Erases.bind (.note id) fun _ => ?_
    split
    · exact .throw _
    · next hnew =>
      cases hb : c.workspace.get? id with
      | none => exact .throw _
      | some b =>
        obtain ⟨ihemit, ihchain⟩ := ih ⟨b, hb⟩ hnew
        dsimp only
        cases c.registry.lookup? b.typeId with
        | none => exact .throw _
        | some d =>
          exact .bind (.mapM fun slot _ => .read ihemit ihchain slot) fun answers => .pure _
  · intro active seen id hemit ih
    rw [chainIn_eq, chainIn_eq]
    split
    · exact .throw _
    · next hnew =>
      refine Erases.bind hemit fun e => ?_
      cases hb : c.workspace.get? id with
      | none => exact .throw _
      | some b =>
        dsimp only
        cases b.next with
        | none => exact .pure _
        | some next => exact .bind (ih ⟨b, hb⟩ hnew next) fun rest => .pure _

/-! ### What the walk meets -/

/-- The walk comes from one block to another. -/
def Meets (c : Compiler) (x : Reading × BlockId) (j : BlockId) : Prop :=
  ∃ kind, Relation.ReflTransGen c.Follows x (kind, j)

theorem Meets.aboveEq (hf : c.workspace.Forest) (h : c.Meets x j) : c.workspace.AboveEq x.2 j := by
  obtain ⟨kind, hway⟩ := h
  exact hf.reaches_iff.mp (hway.lift Prod.snd fun _ _ => Follows.linkTo)

theorem Meets.head {y : Reading × BlockId} (h : c.Follows x y) (hy : c.Meets y j) : c.Meets x j := by
  obtain ⟨kind, hway⟩ := hy
  exact ⟨kind, .head h hway⟩

variable {b : Block} {d : Definition}

theorem meets_value_iff (hb : c.workspace.get? id = some b)
    (hd : c.registry.lookup? b.typeId = some d) : c.Meets (.value, id) j ↔
      j = id ∨ ∃ slot ∈ d.rule.reads, ∃ child, b.inputs.get? slot.2 = some child ∧
        c.Meets (slot.1, child) j := by
  constructor
  · rintro ⟨kind, hway⟩
    rcases Relation.ReflTransGen.cases_head hway with heq | ⟨y, hstep, hrest⟩
    · cases heq; exact .inl rfl
    · cases hstep with
      | @read _ reading _ child _ _ slot hb' hd' hslot hchild =>
        cases hb.symm.trans hb'
        cases hd.symm.trans hd'
        exact .inr ⟨(reading, slot), hslot, child, hchild, kind, hrest⟩
  · rintro (rfl | ⟨⟨reading, slot⟩, hslot, child, hchild, hmeets⟩)
    · exact ⟨.value, .refl⟩
    · exact hmeets.head (.read hb hd hslot hchild)

theorem meets_body_iff (hb : c.workspace.get? id = some b) : c.Meets (.body, id) j ↔
    c.Meets (.value, id) j ∨ ∃ next, b.next = some next ∧ c.Meets (.body, next) j := by
  constructor
  · rintro ⟨kind, hway⟩
    rcases Relation.ReflTransGen.cases_head hway with heq | ⟨y, hstep, hrest⟩
    · cases heq; exact .inl ⟨.value, .refl⟩
    · cases hstep with
      | read hb' hd hslot hchild => exact .inl (Meets.head (.read hb' hd hslot hchild) ⟨kind, hrest⟩)
      | next hb' hnext => cases hb.symm.trans hb'; exact .inr ⟨_, hnext, kind, hrest⟩
  · rintro (⟨kind, hway⟩ | ⟨next, hnext, hmeets⟩)
    · rcases Relation.ReflTransGen.cases_head hway with heq | ⟨y, hstep, hrest⟩
      · cases heq; exact ⟨.body, .refl⟩
      · cases hstep with
        | read hb' hd hslot hchild => exact Meets.head (.read hb' hd hslot hchild) ⟨kind, hrest⟩
    · exact hmeets.head (.next hb hnext)

section Once

variable (hf : c.workspace.Forest)
include hf

theorem once_value (hb : c.workspace.get? id = some b) (hd : c.registry.lookup? b.typeId = some d)
    (hcomplete : d.Complete) {ls : List (List BlockId)}
    (h : List.Forall₂ (fun slot l => match b.inputs.get? slot.2 with
      | none => l = []
      | some child => Once (c.Meets (slot.1, child)) l) d.rule.reads ls) :
    Once (c.Meets (.value, id)) ([id] ++ ls.flatten) := by
  have hpar : ∀ slot child, b.inputs.get? slot = some child →
      c.workspace.parent? child = some (id, .input slot) := fun slot child hchild =>
    (hf.linked ..).mp ((target?_of_get? hb (.input slot)).trans hchild)
  have hslots : Once (fun j => ∃ slot ∈ d.rule.reads, ∃ child,
      b.inputs.get? slot.2 = some child ∧ c.Meets (slot.1, child) j) ls.flatten := by
    refine Once.flatten (h.imp fun slot l hl => ?_) (hcomplete.nodup.imp_of_mem ?_)
    · cases hchild : b.inputs.get? slot.2 with
      | none => rw [hchild] at hl; subst hl; exact Once.nil (by simp)
      | some child => rw [hchild] at hl; exact hl.congr (by simp)
    · rintro x y hx hy hne j ⟨child, hchild, hj⟩ ⟨child', hchild', hj'⟩
      have hx' := hpar _ _ hchild
      have hy' := hpar _ _ hchild'
      obtain rfl := hf.eq_of_siblings hx' hy' (hj.aboveEq hf) (hj'.aboveEq hf)
      have hname : x.2 = y.2 := by simpa using hx'.symm.trans hy'
      exact hne (hcomplete.eq_of_snd hx hy hname)
  refine ((Once.singleton id).append hslots ?_).congr fun j => (meets_value_iff hb hd).symm
  rintro j rfl ⟨slot, -, child, hchild, hj⟩
  have habove : c.workspace.Above j child := ParentOf.above ⟨_, hpar _ _ hchild⟩
  exact hf.acyclic j (Relation.TransGen.trans_left habove (hj.aboveEq hf))

theorem once_body (hb : c.workspace.get? id = some b) {next : BlockId} (hnext : b.next = some next)
    {l l' : List BlockId} (h : Once (c.Meets (.value, id)) l) (h' : Once (c.Meets (.body, next)) l') :
    Once (c.Meets (.body, id)) (l ++ l') := by
  have hpar : c.workspace.parent? next = some (id, .next) :=
    (hf.linked ..).mp ((target?_of_get? hb .next).trans hnext)
  refine (h.append h' ?_).congr fun j => by rw [meets_body_iff hb]; simp [hnext]
  rintro j ⟨kind, hway⟩ hj'
  rcases Relation.ReflTransGen.cases_head hway with heq | ⟨y, hstep, hrest⟩
  · cases heq
    exact hf.acyclic id (Relation.TransGen.trans_left (ParentOf.above ⟨_, hpar⟩) (hj'.aboveEq hf))
  · cases hstep with
    | @read _ reading _ child _ _ slot hb' hd hslot hchild =>
      have hchild : c.workspace.parent? child = some (id, .input slot) :=
        (hf.linked ..).mp ((target?_of_get? hb' (.input slot)).trans hchild)
      have hj : c.Meets (reading, child) j := ⟨kind, hrest⟩
      obtain rfl := hf.eq_of_siblings hchild hpar (hj.aboveEq hf) (hj'.aboveEq hf)
      cases hchild.symm.trans hpar

/-- The log of a walk holds the blocks that it meets, each once. -/
theorem walk_logs (hcomplete : ∀ t d, c.registry.lookup? t = some d → d.Complete) :
    (∀ active id, Logs (c.emitIn note active id) (Once (c.Meets (.value, id)))) ∧
    ∀ active seen id, Logs (c.chainIn note active seen id) (Once (c.Meets (.body, id))) := by
  apply walk_induction (c := c)
  · intro active id ih
    rw [emitIn_eq]
    refine Logs.bind (S := fun l => Once (c.Meets (.value, id)) ([id] ++ l))
      (.note (R := (· = [id])) rfl) (fun _ => ?_) fun l l' hl hl' => hl ▸ hl'
    split
    · exact .throw _
    · next hnew =>
      cases hb : c.workspace.get? id with
      | none => exact .throw _
      | some b =>
        obtain ⟨ihemit, ihchain⟩ := ih ⟨b, hb⟩ hnew
        dsimp only
        cases hd : c.registry.lookup? b.typeId with
        | none => exact .throw _
        | some d =>
          refine .bind_silent ?_ fun answers => .pure rfl
          have hread : ∀ slot ∈ d.rule.reads, Logs (b.read (c.emitIn note (id :: active))
              (c.chainIn note (id :: active) []) slot) _ := fun slot _ =>
            .read (R := fun x => Once (c.Meets x)) ihemit ihchain slot
          refine (Logs.mapM hread).mono ?_
          rintro _ ⟨ls, hls, rfl⟩
          exact once_value hf hb hd (hcomplete _ d hd) hls
  · intro active seen id hemit ih
    rw [chainIn_eq]
    split
    · exact .throw _
    · next hnew =>
      cases hb : c.workspace.get? id with
      | none => exact .bind (S := fun _ => False) hemit (fun e => .throw _) fun _ _ _ h => h.elim
      | some b =>
        dsimp only
        cases hn : b.next with
        | none =>
          refine .mono (.bind_silent hemit fun e => .pure rfl) fun l hl => hl.congr fun j => ?_
          rw [meets_body_iff hb]
          simp [hn]
        | some next =>
          exact .bind hemit (fun e => .bind_silent (ih ⟨b, hb⟩ hnew next) fun rest => .pure rfl)
            fun l l' => once_body hf hb hn

end Once

/-! ### The program -/

section Program

variable {m : Type → Type} [Monad m] [MonadExcept Fault m]

/-- The program, by a walk that tells of each block that it emits. -/
def programIn (c : Compiler) (tell : BlockId → m Unit) : m String := do
  return Text.finish (Text.joinWith "\n" (← c.workspace.topBlocks.mapM (c.chainIn tell [] [])))

end Program

theorem program_eq_programIn (c : Compiler) : c.program = c.programIn silent := by
  rw [program, stackTexts_eq_mapM, funext c.chain_eq_chainIn]
  rfl

theorem programIn_erases (c : Compiler) : Erases (c.programIn note) c.program := by
  rw [program_eq_programIn]
  exact .bind (.mapM fun root _ => walk_erases.2 [] [] root) fun texts => .pure _

theorem programIn_logs (hf : c.workspace.Forest)
    (hcomplete : ∀ t d, c.registry.lookup? t = some d → d.Complete) :
    Logs (c.programIn note)
      (Once fun j => ∃ root ∈ c.workspace.topBlocks, c.Meets (.body, root) j) := by
  refine .bind_silent ?_ fun texts => .pure rfl
  refine .mono (.mapM fun root _ => (walk_logs hf hcomplete).2 [] [] root) ?_
  rintro _ ⟨ls, hls, rfl⟩
  have hnodup : c.workspace.topBlocks.Nodup := (List.mergeSort_perm ..).nodup_iff.mpr hf.top_nodup
  refine Once.flatten hls (hnodup.imp_of_mem ?_)
  intro r r' hr hr' hne j hj hj'
  have hfree : ∀ r ∈ c.workspace.topBlocks, c.workspace.parent? r = none := fun r hr =>
    ((hf.mem_top r).mp (mem_topBlocks.mp hr)).2
  rcases (hj.aboveEq hf).total (hj'.aboveEq hf) with h | h
  · exact hne ((aboveEq_iff.mp h).resolve_right (not_above_of_parent?_none (hfree r' hr')))
  · exact hne ((aboveEq_iff.mp h).resolve_right (not_above_of_parent?_none (hfree r hr))).symm

end Compiler

/-! ### Chains in value slots -/

namespace Workspace

/-- The block stands in a slot that does not take a chain. -/
def InValueSlot (registry : Registry) (ws : Workspace) (id : BlockId) : Prop :=
  ∃ p slot, ws.target? p (.input slot) = some id ∧ takesChain registry ws p (.input slot) = false

/-- The block comes behind one that stands for a value, or is part of such a block. -/
def Bypassed (registry : Registry) (ws : Workspace) (id : BlockId) : Prop :=
  ∃ v next, InValueSlot registry ws v ∧ ws.target? v .next = some next ∧ ws.AboveEq next id

theorem InValueSlot.bypassed {registry : Registry} {ws : Workspace} {v next : BlockId}
    (h : InValueSlot registry ws v) (hnext : ws.target? v .next = some next) :
    Bypassed registry ws next := ⟨v, next, h, hnext, .refl⟩

end Workspace

namespace Compiler

open Workspace Logged

/-- The walk over the stacks comes to a block, in the given way. -/
def Reached (c : Compiler) (x : Reading × BlockId) : Prop :=
  ∃ root ∈ c.workspace.top, Relation.ReflTransGen c.Follows (.body, root) x

/-- The walk can rely on links that fit and on rules that read all that can hang there. -/
structure Surveyed (c : Compiler) : Prop extends c.Checked where
  complete : ∀ t d, c.registry.lookup? t = some d → d.Complete

theorem takesChain_iff {c : Compiler} {p : BlockId} {b : Block} {d : Definition} {slot : String}
    (hb : c.workspace.get? p = some b) (hd : c.registry.lookup? b.typeId = some d)
    (hcomplete : d.Complete) :
    takesChain c.registry c.workspace p (.input slot) = true ↔ (.body, slot) ∈ d.rule.reads := by
  rw [hcomplete.reads]
  simp [takesChain, type?_of_get? hb, hd, Reading.kind]

/-- What hangs in a slot is read, as the slot says. -/
theorem Surveyed.follows {c : Compiler} (h : c.Surveyed) {p v : BlockId} {slot : String}
    (ht : c.workspace.target? p (.input slot) = some v) :
    ∃ kind, ∀ how, c.Follows (how, p) (kind, v) := by
  obtain ⟨tp, tc, htp, -, dp, dc, hdp, -, target, htarget, hfit⟩ := h.typed p _ v ht
  obtain ⟨b, hb⟩ := live_of_target? ht
  obtain rfl : b.typeId = tp := Option.some.inj ((type?_of_get? hb).symm.trans htp)
  have hchild : b.inputs.get? slot = some v := (target?_of_get? hb (.input slot)).symm.trans ht
  have hread : ∀ kind : Reading, target.kind = kind.kind → (kind, slot) ∈ dp.rule.reads := by
    intro kind hkind
    rw [(h.complete _ dp hdp).reads, htarget, Option.map_some, hkind]
  cases hkind : target.kind with
  | value => exact ⟨.value, fun how => .read hb hdp (hread .value hkind) hchild⟩
  | body => exact ⟨.body, fun how => .read hb hdp (hread .body hkind) hchild⟩
  | literal kind => rw [hkind] at hfit; cases hfit

namespace Reached

variable {c : Compiler} {x y : Reading × BlockId} {id p v : BlockId} {how : Reading} {link : Link}

theorem tail (h : c.Reached x) (hxy : c.Follows x y) : c.Reached y := by
  obtain ⟨root, hroot, hway⟩ := h
  exact ⟨root, hroot, hway.tail hxy⟩

theorem cases_tail (h : c.Reached x) :
    (x.1 = .body ∧ x.2 ∈ c.workspace.top) ∨ ∃ y, c.Reached y ∧ c.Follows y x := by
  obtain ⟨root, hroot, hway⟩ := h
  rcases Relation.ReflTransGen.cases_tail hway with rfl | ⟨y, hy, hstep⟩
  · exact .inl ⟨rfl, hroot⟩
  · exact .inr ⟨y, ⟨root, hroot, hy⟩, hstep⟩

/-- What is above a block that the walk comes to, it has come to before. -/
theorem of_aboveEq (hf : c.workspace.Forest) (h : c.Reached x) (hid : c.workspace.AboveEq id x.2) :
    ∃ kind, c.Reached (kind, id) := by
  obtain ⟨root, hroot, hway⟩ := h
  induction hway with
  | refl =>
    have hpar := ((hf.mem_top root).mp hroot).2
    obtain rfl := (aboveEq_iff.mp hid).resolve_right (not_above_of_parent?_none hpar)
    exact ⟨.body, _, hroot, .refl⟩
  | @tail y z hway hstep ih =>
    obtain ⟨link, hpar⟩ := hf.linkTo_iff.mp hstep.linkTo
    rcases aboveEq_iff.mp hid with rfl | habove
    · exact ⟨z.1, root, hroot, hway.tail hstep⟩
    · exact ih ((above_iff_of_parent? hpar).mp habove)

/-- A block that stands for a value is read for it, and no other block is. -/
theorem value_iff (h : c.Surveyed) (hv : c.Reached (how, v)) :
    how = .value ↔ InValueSlot c.registry c.workspace v := by
  have hplace : ∀ p link, c.workspace.parent? v = some (p, link) →
      (InValueSlot c.registry c.workspace v ↔ takesChain c.registry c.workspace p link = false) := by
    intro p link hpar
    constructor
    · rintro ⟨q, slot, ht, htakes⟩
      cases hpar.symm.trans ((h.forest.linked ..).mp ht)
      exact htakes
    · intro htakes
      cases link with
      | input slot => exact ⟨p, slot, (h.forest.linked ..).mpr hpar, htakes⟩
      | next => cases htakes
  rcases hv.cases_tail with ⟨rfl, htop⟩ | ⟨y, -, hstep⟩
  · have hpar := ((h.forest.mem_top v).mp htop).2
    refine iff_of_false nofun ?_
    rintro ⟨p, slot, ht, -⟩
    cases hpar.symm.trans ((h.forest.linked ..).mp ht)
  · cases hstep with
    | @read _ _ p _ b d slot hb hd hslot hchild =>
      have hpar := (h.forest.linked ..).mp ((target?_of_get? hb (.input slot)).trans hchild)
      have hcomplete := h.complete _ d hd
      rw [hplace p _ hpar, Bool.eq_false_iff, ne_eq, takesChain_iff hb hd hcomplete]
      cases how with
      | value =>
        refine iff_of_true rfl fun hbody => ?_
        cases hcomplete.eq_of_snd hslot hbody rfl
      | body => exact iff_of_false nofun fun hnot => hnot hslot
    | @next p _ b hb hnext =>
      have hpar := (h.forest.linked ..).mp ((target?_of_get? hb .next).trans hnext)
      rw [hplace p _ hpar]
      exact iff_of_false nofun nofun

theorem of_next (hf : c.workspace.Forest) (h : c.Reached (how, id))
    (ht : c.workspace.target? v .next = some id) : c.Reached (.body, v) := by
  have hpar := (hf.linked ..).mp ht
  rcases h.cases_tail with ⟨-, htop⟩ | ⟨y, hy, hstep⟩
  · cases hpar.symm.trans ((hf.mem_top id).mp htop).2
  · cases hstep with
    | read hb hd hslot hchild =>
      cases hpar.symm.trans ((hf.linked ..).mp ((target?_of_get? hb (.input _)).trans hchild))
    | next hb hnext =>
      cases hpar.symm.trans ((hf.linked ..).mp ((target?_of_get? hb .next).trans hnext))
      exact hy

end Reached

/-- The walk comes to the live blocks that do not come behind a value. -/
theorem Surveyed.reached_iff {c : Compiler} (h : c.Surveyed) {id : BlockId} :
    (∃ how, c.Reached (how, id)) ↔
      c.workspace.Live id ∧ ¬ Bypassed c.registry c.workspace id := by
  have hf := h.forest
  constructor
  · rintro ⟨how, hid⟩
    constructor
    · rcases hid.cases_tail with ⟨-, htop⟩ | ⟨y, -, hstep⟩
      · exact ((hf.mem_top id).mp htop).1
      · obtain ⟨link, ht⟩ := hstep.linkTo
        exact hf.live_target ht
    · rintro ⟨v, next, hvalue, ht, hbelow⟩
      obtain ⟨kind, hnext⟩ := hid.of_aboveEq hf hbelow
      have hv := hnext.of_next hf ht
      cases (hv.value_iff h).mpr hvalue
  · rintro ⟨hlive, hpassed⟩
    obtain ⟨root, hroot, hbelow⟩ := hf.exists_root hlive
    induction hbelow with
    | refl => exact ⟨.body, root, hroot, .refl⟩
    | @tail p id hbelow hpar ih =>
      obtain ⟨link, hpar⟩ := hpar
      have hpassed' : ¬ Bypassed c.registry c.workspace p := by
        rintro ⟨v, next, hvalue, ht, hnext⟩
        exact hpassed ⟨v, next, hvalue, ht, hnext.tail ⟨link, hpar⟩⟩
      obtain ⟨how, hp⟩ := ih (hf.live_parent hpar) hpassed'
      have ht := (hf.linked ..).mpr hpar
      cases link with
      | input slot =>
        obtain ⟨kind, hstep⟩ := h.follows ht
        exact ⟨kind, hp.tail (hstep how)⟩
      | next =>
        obtain ⟨b, hb⟩ := live_of_target? ht
        have hnext : b.next = some id := (target?_of_get? hb .next).symm.trans ht
        cases how with
        | value => exact absurd (((hp.value_iff h).mp rfl).bypassed ht) hpassed
        | body => exact ⟨.body, hp.tail (.next hb hnext)⟩

/-- The log of the program holds just these blocks, each once. -/
theorem Surveyed.program_log {c : Compiler} (h : c.Surveyed) {code : String}
    (hcode : c.program = .ok code) : ∃ log, (c.programIn note).run [] = .ok (code, log) ∧
      Once (fun id => c.workspace.Live id ∧ ¬ Bypassed c.registry c.workspace id) log := by
  have herase := programIn_erases c []
  rw [hcode] at herase
  cases hrun : (c.programIn note).run [] with
  | error fault => rw [hrun] at herase; cases herase
  | ok r =>
    obtain ⟨code', log⟩ := r
    rw [hrun] at herase
    cases herase
    obtain ⟨l, hl, honce⟩ := programIn_logs h.forest h.complete [] code' log hrun
    obtain rfl : log = l := hl
    refine ⟨log, rfl, honce.congr fun id => Iff.trans ?_ h.reached_iff⟩
    constructor
    · rintro ⟨root, hroot, how, hway⟩
      exact ⟨how, root, mem_topBlocks.mp hroot, hway⟩
    · rintro ⟨how, root, hroot, hway⟩
      exact ⟨root, mem_topBlocks.mpr hroot, how, hway⟩

theorem Surveyed.program_omits {registry : Registry} {ws : Workspace} {options : Options}
    (h : Surveyed ⟨registry, ws, options⟩) {code : String}
    (hcode : program ⟨registry, ws, options⟩ = .ok code) {v next : BlockId}
    (hv : InValueSlot registry ws v) (hnext : ws.target? v .next = some next) :
    ∃ code log, program ⟨registry, ws, options⟩ = .ok code ∧
      (programIn ⟨registry, ws, options⟩ note).run [] = .ok (code, log) ∧ ws.Live next ∧
      next ∉ log := by
  obtain ⟨log, hrun, -, hmem⟩ := h.program_log hcode
  exact ⟨code, log, hcode, hrun, h.forest.live_target hnext,
    fun hlog => ((hmem next).mp hlog).2 (hv.bypassed hnext)⟩

end Compiler

namespace Workspace

open Compiler Logged

theorem after_surveyed (digest : String → String) (growth : List Growth) (ops : List Operation)
    (options : Options) :
    let registry := Registry.stock.grown digest growth
    Compiler.Surveyed { registry, workspace := after registry ops, options } :=
  ⟨after_checked digest growth ops options, fun _ _ => Registry.complete_of_lookup?_grown⟩

/-- A walk over a workspace that was made by edits emits no block twice. It emits all blocks but
those that come behind a block in a value slot: of such a block only the value is read. -/
theorem program_emits_once (digest : String → String) (growth : List Growth) (ops : List Operation)
    (options : Options) :
    let registry := Registry.stock.grown digest growth
    let ws := after registry ops
    let c : Compiler := { registry, workspace := ws, options }
    ∀ code, c.program = .ok code → ∃ log, (c.programIn note).run [] = .ok (code, log) ∧ log.Nodup ∧
      ∀ id, id ∈ log ↔ ws.Live id ∧ ¬ ws.Bypassed registry id := by
  intro registry ws c code hcode
  obtain ⟨log, hrun, hnodup, hmem⟩ := (after_surveyed digest growth ops options).program_log hcode
  exact ⟨log, hrun, hnodup, hmem⟩

/-- What is awaited is printed, and a statement hangs behind the one that awaits. -/
def asideHistory : List Operation :=
  [.add "python_print", .add "python_await", .add "python_pass", .connectInput ⟨0⟩ "VALUE" ⟨1⟩,
    .connectNext ⟨1⟩ ⟨2⟩]

theorem program_asideHistory {registry : Registry}
    (h : registry = ⟨Catalogue.all, Catalogue.distinct_all⟩) :
    Compiler.program ⟨registry, after registry asideHistory, {}⟩ = .ok "print(await None)\n" := by
  subst h
  decide +kernel

theorem links_asideHistory {registry : Registry}
    (h : registry = ⟨Catalogue.all, Catalogue.distinct_all⟩) :
    InValueSlot registry (after registry asideHistory) ⟨1⟩ ∧
    (after registry asideHistory).target? ⟨1⟩ .next = some ⟨2⟩ := by
  subst h
  exact ⟨⟨⟨0⟩, "VALUE", by decide +kernel, by decide +kernel⟩, by decide +kernel⟩

theorem program_emits_once_aside :
    let registry := Registry.stock.grown (fun t => t) []
    let ws := after registry asideHistory
    let c : Compiler := { registry, workspace := ws, options := {} }
    c.program = .ok "print(await None)\n" ∧
    ∃ log, (c.programIn note).run [] = .ok ("print(await None)\n", log) ∧ log.Nodup ∧
      ∀ id, id ∈ log ↔ ws.Live id ∧ ¬ ws.Bypassed registry id :=
  have hprogram := program_asideHistory (Registry.stock_grown_nil fun t => t)
  ⟨hprogram, program_emits_once (fun t => t) [] asideHistory {} _ hprogram⟩

/-- The statement is a live block, and the walk leaves it out. -/
theorem program_omits_aside :
    let registry := Registry.stock.grown (fun t => t) []
    let ws := after registry asideHistory
    let c : Compiler := { registry, workspace := ws, options := {} }
    ∃ code log, c.program = .ok code ∧ (c.programIn note).run [] = .ok (code, log) ∧
      ws.Live ⟨2⟩ ∧ ⟨2⟩ ∉ log := by
  have hlinks := links_asideHistory (Registry.stock_grown_nil fun t => t)
  exact (after_surveyed (fun t => t) [] asideHistory {}).program_omits
    (program_asideHistory (Registry.stock_grown_nil _)) hlinks.1 hlinks.2

end Workspace

end Blockwright
