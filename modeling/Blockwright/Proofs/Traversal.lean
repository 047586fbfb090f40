import Blockwright.Catalogue.Basic
import Blockwright.Proofs.Connections
import Blockwright.Proofs.Deletion
import Blockwright.Proofs.Reading
import Blockwright.Proofs.Walk
import Mathlib.Order.WellFounded

/-!
# The walk without fuel

`Compiler.emitIn` and `Compiler.chainIn` walk over the links of any workspace without fuel: a block
that is part of itself, or that comes twice in a chain, stops the walk, so each call knows fewer
blocks that it has not met. They run in any monad and tell of each block that they emit. Where they
tell nobody, they are the walk of the compiler (`Compiler.chain_eq_chainIn`). The code of a block is
the same wherever it stands (`Compiler.walk_mono`).

`Compiler.Follows` is one step of the walk. Main statement: `Compiler.chain_on_any_links`, by which
the walk stops at a circle where it could go on for ever, and only there.
-/

namespace Blockwright

namespace Workspace

variable {ws : Workspace} {id : BlockId} {met : List BlockId}

/-- The number of live blocks that are not in a list. -/
noncomputable def unmet (ws : Workspace) (met : List BlockId) : Nat :=
  countBelow ws.capacity fun i => ws.Live ⟨i⟩ ∧ (⟨i⟩ : BlockId) ∉ met

theorem unmet_cons_lt (hid : ws.Live id) (hnew : id ∉ met) :
    ws.unmet (id :: met) < ws.unmet met := by
  refine countBelow_lt (j := id.index) (fun i h => ⟨h.1, fun hm => ?_⟩) hid.lt_capacity ⟨hid, hnew⟩
    fun h => h.2 (List.mem_cons_self ..)
  exact h.2 (List.mem_cons_of_mem _ hm)

theorem mem_of_unmet_zero (h : ws.unmet met = 0) (hid : ws.Live id) : id ∈ met := by
  by_contra hnew
  have hlt := unmet_cons_lt hid hnew
  omega

end Workspace

/-! ### What reads give -/

section Reads

variable {α β ε : Type} {f : α → Except ε β} {xs : List α} {ys : List β} {fault : ε}

theorem mapM_error (h : xs.mapM f = .error fault) : ∃ x ∈ xs, f x = .error fault := by
  induction xs with
  | nil => cases h
  | cons x xs ih =>
    rw [List.mapM_cons] at h
    cases hx : f x with
    | error e => rw [hx] at h; cases h; exact ⟨x, List.mem_cons_self .., hx⟩
    | ok y =>
      rw [hx] at h
      cases hxs : xs.mapM f with
      | error e =>
        rw [hxs] at h
        cases h
        obtain ⟨z, hz, hfault⟩ := ih hxs
        exact ⟨z, List.mem_cons_of_mem _ hz, hfault⟩
      | ok ys => rw [hxs] at h; cases h

theorem mapM_eq_ok_iff : xs.mapM f = .ok ys ↔ List.Forall₂ (fun x y => f x = .ok y) xs ys := by
  induction xs generalizing ys with
  | nil => cases ys <;> simp [pure, Except.pure]
  | cons x xs ih =>
    rw [List.mapM_cons, List.forall₂_cons_left_iff]
    constructor
    · intro h
      cases hx : f x with
      | error e => rw [hx] at h; cases h
      | ok y =>
        rw [hx] at h
        cases hxs : xs.mapM f with
        | error e => rw [hxs] at h; cases h
        | ok zs => rw [hxs] at h; cases h; exact ⟨y, zs, rfl, ih.mp hxs, rfl⟩
    · rintro ⟨y, zs, hx, hxs, rfl⟩
      rw [hx, ih.mpr hxs]
      rfl

theorem mapM_ok (h : xs.mapM f = .ok ys) : ∀ x ∈ xs, ∃ y, f x = .ok y := by
  induction mapM_eq_ok_iff.mp h with
  | nil => simp
  | cons hx hrest ih => exact List.forall_mem_cons.mpr ⟨⟨_, hx⟩, ih (mapM_eq_ok_iff.mpr hrest)⟩

end Reads

namespace Block

variable {b : Block} {emit : BlockId → Except Fault Emission}
  {chain : BlockId → Except Fault String} {slot : String} {child a : BlockId} {answer : Answer}

theorem emit_cycle_of_read (h : b.read emit chain (.value, slot) = .error (.cycle a)) :
    ∃ child, b.inputs.get? slot = some child ∧ emit child = .error (.cycle a) := by
  cases hc : b.inputs.get? slot with
  | none => simp only [read, hc] at h; cases h
  | some child =>
    simp only [read, hc] at h
    cases he : emit child with
    | error fault => rw [he] at h; cases h; exact ⟨child, rfl, he⟩
    | ok e => rw [he] at h; cases e <;> cases h

theorem chain_cycle_of_read (h : b.read emit chain (.body, slot) = .error (.cycle a)) :
    ∃ child, b.inputs.get? slot = some child ∧ chain child = .error (.cycle a) := by
  cases hc : b.inputs.get? slot with
  | none => simp only [read, hc] at h; cases h
  | some child =>
    simp only [read, hc] at h
    cases hs : chain child with
    | error fault => rw [hs] at h; cases h; exact ⟨child, rfl, hs⟩
    | ok code => rw [hs] at h; cases h

theorem emit_ok_of_read (h : b.read emit chain (.value, slot) = .ok answer)
    (hc : b.inputs.get? slot = some child) : ∃ e, emit child = .ok e := by
  simp only [read, hc] at h
  cases he : emit child with
  | error fault => rw [he] at h; cases h
  | ok e => exact ⟨e, rfl⟩

theorem chain_ok_of_read (h : b.read emit chain (.body, slot) = .ok answer)
    (hc : b.inputs.get? slot = some child) : ∃ code, chain child = .ok code := by
  simp only [read, hc] at h
  cases hs : chain child with
  | error fault => rw [hs] at h; cases h
  | ok code => exact ⟨code, rfl⟩

theorem read_mono {emit' : BlockId → Except Fault Emission}
    {chain' : BlockId → Except Fault String} (hemit : ∀ j e, emit j = .ok e → emit' j = .ok e)
    (hchain : ∀ j code, chain j = .ok code → chain' j = .ok code) {slot : Reading × String}
    (h : b.read emit chain slot = .ok answer) : b.read emit' chain' slot = .ok answer := by
  obtain ⟨kind, name⟩ := slot
  cases hc : b.inputs.get? name with
  | none => cases kind <;> simpa only [read, hc] using h
  | some child =>
    cases kind with
    | value =>
      obtain ⟨e, he⟩ := emit_ok_of_read h hc
      simpa only [read, hc, he, hemit child e he] using h
    | body =>
      obtain ⟨code, hs⟩ := chain_ok_of_read h hc
      simpa only [read, hc, hs, hchain child code hs] using h

end Block

namespace Compiler

open Workspace

/-- The site of a block, with the code of the other blocks. -/
def siteOf (c : Compiler) (d : Definition) (b : Block) : Site :=
  { options := c.options, schema := d.schema, block := b, emit := c.emit, chain := c.chain }

section Walk

variable {m : Type → Type} [Monad m] [MonadExcept Fault m]

mutual

/-- The code of a block that is part of the `active` ones. -/
def emitIn (c : Compiler) (tell : BlockId → m Unit) (active : List BlockId) (id : BlockId) :
    m Emission := do
  tell id
  if _hnew : id ∈ active then throw (.cycle id)
  else
    match _hb : c.workspace.get? id with
    | none => throw (.missing id)
    | some b =>
      match c.registry.lookup? b.typeId with
      | none => throw (.unknownType b.typeId)
      | some d =>
        let answers ← d.rule.reads.mapM <|
          b.read (fun j => c.emitIn tell (id :: active) j) fun j => c.chainIn tell (id :: active) [] j
        return (c.siteOf d b).write d.rule answers
termination_by (c.workspace.unmet active, 0, 0)
decreasing_by
  · exact Prod.Lex.left _ _ (unmet_cons_lt ⟨b, _hb⟩ _hnew)
  · exact Prod.Lex.left _ _ (unmet_cons_lt ⟨b, _hb⟩ _hnew)

/-- The code of a chain from `id` on, with the `seen` blocks before it. -/
def chainIn (c : Compiler) (tell : BlockId → m Unit) (active seen : List BlockId) (id : BlockId) :
    m String := do
  if _hnew : id ∈ seen then throw (.cycle id)
  else
    let emission ← c.emitIn tell active id
    match _hb : c.workspace.get? id with
    | none => throw (.missing id)
    | some b =>
      match b.next with
      | none => return emission.line
      | some next => return emission.line ++ (← c.chainIn tell active (id :: seen) next)
termination_by (c.workspace.unmet active, 1, c.workspace.unmet seen)
decreasing_by
  · exact Prod.Lex.right _ (Prod.Lex.left _ _ Nat.zero_lt_one)
  · exact Prod.Lex.right _ (Prod.Lex.right _ (unmet_cons_lt ⟨b, _hb⟩ _hnew))

end

variable {c : Compiler} {tell : BlockId → m Unit} {active seen : List BlockId} {id : BlockId}

theorem emitIn_eq : c.emitIn tell active id = (do
    tell id
    if id ∈ active then throw (.cycle id)
    else
      match c.workspace.get? id with
      | none => throw (.missing id)
      | some b =>
        match c.registry.lookup? b.typeId with
        | none => throw (.unknownType b.typeId)
        | some d =>
          let answers ← d.rule.reads.mapM <|
            b.read (c.emitIn tell (id :: active)) (c.chainIn tell (id :: active) [])
          return (c.siteOf d b).write d.rule answers) := by
  rw [emitIn]
  congr 1
  funext _
  split
  · rfl
  · split <;> simp_all

theorem chainIn_eq : c.chainIn tell active seen id = (do
    if id ∈ seen then throw (.cycle id)
    else
      let emission ← c.emitIn tell active id
      match c.workspace.get? id with
      | none => throw (.missing id)
      | some b =>
        match b.next with
        | none => return emission.line
        | some next => return emission.line ++ (← c.chainIn tell active (id :: seen) next)) := by
  rw [chainIn]
  split
  · rfl
  · congr 1
    funext emission
    split <;> simp_all

end Walk

/-- A walk that nobody is told of. -/
def silent (_ : BlockId) : Except Fault Unit := .ok ()

section Induction

variable {c : Compiler}

/-- What holds of the walk because it holds of the calls that a call makes. -/
theorem walk_induction {P : List BlockId → BlockId → Prop}
    {Q : List BlockId → List BlockId → BlockId → Prop}
    (hemit : ∀ active id, (c.workspace.Live id → id ∉ active →
      (∀ j, P (id :: active) j) ∧ ∀ j, Q (id :: active) [] j) → P active id)
    (hchain : ∀ active seen id, P active id →
      (c.workspace.Live id → id ∉ seen → ∀ j, Q active (id :: seen) j) → Q active seen id) :
    (∀ active id, P active id) ∧ ∀ active seen id, Q active seen id := by
  have chain_of_emit : ∀ active, (∀ id, P active id) → ∀ seen id, Q active seen id := by
    intro active hP seen
    induction hn : c.workspace.unmet seen using Nat.strong_induction_on generalizing seen with
    | _ n ih =>
      intro id
      refine hchain active seen id (hP id) fun hid hnew j => ?_
      exact ih _ (hn ▸ unmet_cons_lt hid hnew) _ rfl j
  have emit : ∀ active id, P active id := by
    intro active
    induction hn : c.workspace.unmet active using Nat.strong_induction_on generalizing active with
    | _ n ih =>
      intro id
      refine hemit active id fun hid hnew => ?_
      have hP := ih _ (hn ▸ unmet_cons_lt hid hnew) _ rfl
      exact ⟨hP, chain_of_emit _ hP []⟩
  exact ⟨emit, fun active => chain_of_emit active (emit active)⟩

end Induction

/-! ### The fuel is enough -/

section Fuel

variable {c : Compiler} {fuel : Nat} {active seen : List BlockId} {id : BlockId}

theorem emitIn_not_live (hid : ¬ c.workspace.Live id) (hactive : id ∉ active) :
    c.emitIn silent active id = .error (.missing id) := by
  rw [emitIn_eq, if_neg hactive, not_live_iff.mp hid]
  rfl

/-- Once every block is met, the next one is met again. -/
theorem exhausted_eq (hmet : ∀ a ∈ active, c.workspace.Live a)
    (hall : c.workspace.unmet active = 0) :
    .error (c.workspace.exhausted id) = c.emitIn silent active id := by
  by_cases hid : c.workspace.Live id
  · obtain ⟨b, hb⟩ := hid
    rw [emitIn_eq, if_pos (mem_of_unmet_zero hall ⟨b, hb⟩), exhausted, hb]
    rfl
  · rw [emitIn_not_live hid fun hm => hid (hmet id hm), exhausted, not_live_iff.mp hid]

theorem chainFrom_zero_eq (hactive : ∀ a ∈ active, c.workspace.Live a)
    (hmet : ∀ a ∈ seen, c.workspace.Live a) (hall : c.workspace.unmet seen = 0) :
    .error (c.workspace.exhausted id) = c.chainIn silent active seen id := by
  by_cases hid : c.workspace.Live id
  · obtain ⟨b, hb⟩ := hid
    rw [chainIn_eq, if_pos (mem_of_unmet_zero hall ⟨b, hb⟩), exhausted, hb]
    rfl
  · rw [chainIn_eq, if_neg fun hm => hid (hmet id hm),
      emitIn_not_live hid fun hm => hid (hactive id hm), exhausted, not_live_iff.mp hid]
    rfl

theorem rule_siteOf (d : Definition) (b : Block) (emit : BlockId → Except Fault Emission)
    (chain : BlockId → Except Fault String) :
    Site.rule ⟨c.options, d.schema, b, emit, chain⟩ d.rule = (do
      return (c.siteOf d b).write d.rule (← d.rule.reads.mapM (b.read emit chain))) := by
  have hsame : Site.Resembles d.rule ⟨c.options, d.schema, b, emit, chain⟩ (c.siteOf d b) :=
    .of_fields rfl rfl rfl rfl
  rw [Site.rule_eq, funext hsame.write_eq]
  rfl

/-- As much fuel as there are unmet blocks is enough. -/
theorem walk_eq :
    (∀ active id, (∀ a ∈ active, c.workspace.Live a) → ∀ fuel, c.workspace.unmet active ≤ fuel →
      c.emitFrom fuel active id = c.emitIn silent active id) ∧
    ∀ active seen id, (∀ a ∈ active, c.workspace.Live a) → (∀ a ∈ seen, c.workspace.Live a) →
      ∀ fuel, c.workspace.unmet seen ≤ fuel →
      c.chainFrom (c.emitIn silent active) fuel seen id = c.chainIn silent active seen id := by
  apply walk_induction (c := c)
  · intro active id ih hactive fuel hfuel
    cases fuel with
    | zero => exact exhausted_eq hactive (Nat.le_zero.mp hfuel)
    | succ fuel =>
      rw [emitFrom, emitIn_eq]
      split
      · rfl
      · next hnew =>
        cases hb : c.workspace.get? id with
        | none => rw [Workspace.get, hb]; rfl
        | some b =>
          have hid : c.workspace.Live id := ⟨b, hb⟩
          have hlt := unmet_cons_lt hid hnew
          have hlive : ∀ a ∈ id :: active, c.workspace.Live a :=
            List.forall_mem_cons.mpr ⟨hid, hactive⟩
          obtain ⟨ihemit, ihchain⟩ := ih hid hnew
          have hemit : c.emitFrom fuel (id :: active) = c.emitIn silent (id :: active) :=
            funext fun j => ihemit j hlive fuel (by omega)
          have hchain : c.chainWith (c.emitIn silent (id :: active)) =
              c.chainIn silent (id :: active) [] :=
            funext fun j => ihchain j hlive (by simp) _ (countBelow_le ..)
          rw [get_of_get? hb, hemit]
          simp only [bind, Except.bind, silent]
          cases hd : c.registry.lookup? b.typeId with
          | none => rw [Registry.lookup_of_lookup?_none hd]; rfl
          | some d =>
            rw [Registry.lookup_of_lookup? hd]
            dsimp only
            rw [hchain, rule_siteOf]
            rfl
  · intro active seen id hemit ih hactive hseen fuel hfuel
    cases fuel with
    | zero => exact chainFrom_zero_eq hactive hseen (Nat.le_zero.mp hfuel)
    | succ fuel =>
      rw [chainFrom, chainIn_eq]
      split
      · rfl
      · next hnew =>
        congr 1
        funext emission
        cases hb : c.workspace.get? id with
        | none => rw [Workspace.get, hb]; rfl
        | some b =>
          have hid : c.workspace.Live id := ⟨b, hb⟩
          have hlt := unmet_cons_lt hid hnew
          rw [get_of_get? hb]
          simp only [bind, Except.bind]
          cases b.next with
          | none => rfl
          | some next =>
            dsimp only
            rw [ih hid hnew next hactive (List.forall_mem_cons.mpr ⟨hid, hseen⟩) fuel (by omega)]

theorem emit_eq_emitIn (c : Compiler) (id : BlockId) : c.emit id = c.emitIn silent [] id :=
  walk_eq.1 [] id (by simp) _ (countBelow_le ..)

theorem chain_eq_chainIn (c : Compiler) (head : BlockId) :
    c.chain head = c.chainIn silent [] [] head := by
  rw [chain, chainWith, funext c.emit_eq_emitIn]
  exact walk_eq.2 [] [] head (by simp) (by simp) _ (countBelow_le ..)

end Fuel

/-! ### Ways of the walk -/

/-- The walk goes on from one block to another: into the slots that the rule reads, and in a chain
to the next block too. -/
inductive Follows (c : Compiler) : Reading × BlockId → Reading × BlockId → Prop
  | read {how kind : Reading} {id child : BlockId} {b : Block} {d : Definition} {slot : String}
      (hb : c.workspace.get? id = some b) (hd : c.registry.lookup? b.typeId = some d)
      (hslot : (kind, slot) ∈ d.rule.reads) (hchild : b.inputs.get? slot = some child) :
      Follows c (how, id) (kind, child)
  | next {id next : BlockId} {b : Block} (hb : c.workspace.get? id = some b)
      (hnext : b.next = some next) : Follows c (.body, id) (.body, next)

variable {c : Compiler} {active seen : List BlockId} {id a : BlockId}

theorem Follows.linkTo {x y : Reading × BlockId} (h : c.Follows x y) :
    c.workspace.LinkTo x.2 y.2 := by
  cases h with
  | @read _ _ _ _ _ _ slot hb _ _ hchild => exact ⟨.input slot, (target?_of_get? hb _).trans hchild⟩
  | next hb hnext => exact ⟨.next, (target?_of_get? hb _).trans hnext⟩

/-! ### What a call does -/

theorem emitIn_cases (c : Compiler) (active : List BlockId) (id : BlockId) :
    (id ∈ active ∧ c.emitIn silent active id = .error (.cycle id)) ∨
    c.emitIn silent active id = .error (.missing id) ∨
    (∃ typeId, c.emitIn silent active id = .error (.unknownType typeId)) ∨
    ∃ b d, id ∉ active ∧ c.workspace.get? id = some b ∧ c.registry.lookup? b.typeId = some d ∧
      c.emitIn silent active id = (do
        return (c.siteOf d b).write d.rule (← d.rule.reads.mapM
          (b.read (c.emitIn silent (id :: active)) (c.chainIn silent (id :: active) [])))) := by
  rw [emitIn_eq]
  by_cases hactive : id ∈ active
  · exact .inl ⟨hactive, by rw [if_pos hactive]; rfl⟩
  · rw [if_neg hactive]
    cases hb : c.workspace.get? id with
    | none => exact .inr (.inl rfl)
    | some b =>
      dsimp only
      cases hd : c.registry.lookup? b.typeId with
      | none => exact .inr (.inr (.inl ⟨_, rfl⟩))
      | some d => exact .inr (.inr (.inr ⟨b, d, hactive, rfl, hd, rfl⟩))

theorem chainIn_cases (c : Compiler) (active seen : List BlockId) (id : BlockId) :
    (id ∈ seen ∧ c.chainIn silent active seen id = .error (.cycle id)) ∨
    (∃ fault, c.emitIn silent active id = .error fault ∧
      c.chainIn silent active seen id = .error fault) ∨
    c.chainIn silent active seen id = .error (.missing id) ∨
    ∃ b e, id ∉ seen ∧ c.workspace.get? id = some b ∧ c.emitIn silent active id = .ok e ∧
      c.chainIn silent active seen id =
        match b.next with
        | none => return e.line
        | some next => do return e.line ++ (← c.chainIn silent active (id :: seen) next) := by
  rw [chainIn_eq]
  by_cases hseen : id ∈ seen
  · exact .inl ⟨hseen, by rw [if_pos hseen]; rfl⟩
  · rw [if_neg hseen]
    cases he : c.emitIn silent active id with
    | error fault => exact .inr (.inl ⟨fault, rfl, rfl⟩)
    | ok e =>
      cases hb : c.workspace.get? id with
      | none => exact .inr (.inr (.inl rfl))
      | some b => exact .inr (.inr (.inr ⟨b, e, hseen, rfl, rfl, rfl⟩))

/-! ### Circles -/

theorem emitIn_cycle (h : c.emitIn silent active id = .error (.cycle a)) :
    (id ∈ active ∧ a = id) ∨ ∃ b d, id ∉ active ∧ c.workspace.get? id = some b ∧
      c.registry.lookup? b.typeId = some d ∧
      d.rule.reads.mapM (b.read (c.emitIn silent (id :: active)) (c.chainIn silent (id :: active) []))
        = .error (.cycle a) := by
  rcases emitIn_cases c active id with ⟨hmem, he⟩ | he | ⟨typeId, he⟩ | ⟨b, d, hnew, hb, hd, he⟩
  · cases he.symm.trans h; exact .inl ⟨hmem, rfl⟩
  · cases he.symm.trans h
  · cases he.symm.trans h
  · refine .inr ⟨b, d, hnew, hb, hd, ?_⟩
    rw [he] at h
    cases hread : d.rule.reads.mapM
      (b.read (c.emitIn silent (id :: active)) (c.chainIn silent (id :: active) [])) with
    | error fault => rw [hread] at h; cases h; rfl
    | ok answers => rw [hread] at h; cases h

theorem chainIn_cycle (h : c.chainIn silent active seen id = .error (.cycle a)) :
    (id ∈ seen ∧ a = id) ∨ c.emitIn silent active id = .error (.cycle a) ∨
      ∃ b next, id ∉ seen ∧ c.workspace.get? id = some b ∧ b.next = some next ∧
        c.chainIn silent active (id :: seen) next = .error (.cycle a) := by
  rcases chainIn_cases c active seen id with
    ⟨hmem, hs⟩ | ⟨fault, he, hs⟩ | hs | ⟨b, e, hnew, hb, he, hs⟩
  · cases hs.symm.trans h; exact .inl ⟨hmem, rfl⟩
  · cases hs.symm.trans h; exact .inr (.inl he)
  · cases hs.symm.trans h
  · rw [hs] at h
    cases hn : b.next with
    | none => rw [hn] at h; cases h
    | some next =>
      rw [hn] at h
      refine .inr (.inr ⟨b, next, hnew, hb, hn, ?_⟩)
      cases hrest : c.chainIn silent active (id :: seen) next with
      | error fault => simp only [hrest] at h; cases h; rfl
      | ok rest => simp only [hrest] at h; cases h

/-- Where the walk stops at a circle it has come to the block that it names, and it would come to it
again. Inside other blocks the circle may be closed by one of these. -/
theorem walk_cycle :
    (∀ active id, c.emitIn silent active id = .error (.cycle a) → ∀ how, ∃ kind,
      Relation.ReflTransGen c.Follows (how, id) (kind, a) ∧
      (a ∈ active ∨ Relation.TransGen c.Follows (kind, a) (kind, a))) ∧
    ∀ active seen id, c.chainIn silent active seen id = .error (.cycle a) →
      (∀ s ∈ seen, Relation.TransGen c.Follows (.body, s) (.body, id)) → ∃ kind,
      Relation.ReflTransGen c.Follows (.body, id) (kind, a) ∧
      (a ∈ active ∨ Relation.TransGen c.Follows (kind, a) (kind, a)) := by
  apply walk_induction (c := c)
  · intro active id ih h how
    rcases emitIn_cycle h with ⟨hmem, rfl⟩ | ⟨b, d, hnew, hb, hd, hread⟩
    · exact ⟨how, .refl, .inl hmem⟩
    · obtain ⟨ihemit, ihchain⟩ := ih ⟨b, hb⟩ hnew
      obtain ⟨⟨reading, slot⟩, hslot, hfault⟩ := mapM_error hread
      obtain ⟨child, hchild, kind, hway, hback⟩ : ∃ child, b.inputs.get? slot = some child ∧
          ∃ kind, Relation.ReflTransGen c.Follows (reading, child) (kind, a) ∧
            (a ∈ id :: active ∨ Relation.TransGen c.Follows (kind, a) (kind, a)) := by
        cases reading with
        | value =>
          obtain ⟨child, hchild, hcycle⟩ := Block.emit_cycle_of_read hfault
          exact ⟨child, hchild, ihemit child hcycle .value⟩
        | body =>
          obtain ⟨child, hchild, hcycle⟩ := Block.chain_cycle_of_read hfault
          exact ⟨child, hchild, ihchain child hcycle (by simp)⟩
      refine ⟨kind, .head (.read hb hd hslot hchild) hway, ?_⟩
      rcases hback with hmem | hback
      · rcases List.mem_cons.mp hmem with rfl | hmem
        · exact .inr (.head' (.read hb hd hslot hchild) hway)
        · exact .inl hmem
      · exact .inr hback
  · intro active seen id hemit ih h hseen
    rcases chainIn_cycle h with ⟨hmem, rfl⟩ | hfault | ⟨b, next, hnew, hb, hn, hrest⟩
    · exact ⟨.body, .refl, .inr (hseen a hmem)⟩
    · exact hemit hfault .body
    · have hseen' : ∀ s ∈ id :: seen, Relation.TransGen c.Follows (.body, s) (.body, next) := by
        intro s hs
        rcases List.mem_cons.mp hs with rfl | hs
        · exact .single (.next hb hn)
        · exact .tail (hseen s hs) (.next hb hn)
      obtain ⟨kind, hway, hback⟩ := ih ⟨b, hb⟩ hnew next hrest hseen'
      exact ⟨kind, .head (.next hb hn) hway, hback⟩

/-! ### Ends -/

theorem emitIn_eq_ok_iff {e : Emission} : c.emitIn silent active id = .ok e ↔
    ∃ b d answers, id ∉ active ∧ c.workspace.get? id = some b ∧
      c.registry.lookup? b.typeId = some d ∧
      d.rule.reads.mapM (b.read (c.emitIn silent (id :: active)) (c.chainIn silent (id :: active) []))
        = .ok answers ∧ (c.siteOf d b).write d.rule answers = e := by
  constructor
  · intro h
    rcases emitIn_cases c active id with ⟨_, he⟩ | he | ⟨_, he⟩ | ⟨b, d, hnew, hb, hd, he⟩
    · cases he.symm.trans h
    · cases he.symm.trans h
    · cases he.symm.trans h
    · rw [he] at h
      cases hread : d.rule.reads.mapM
        (b.read (c.emitIn silent (id :: active)) (c.chainIn silent (id :: active) [])) with
      | error fault => rw [hread] at h; cases h
      | ok answers => rw [hread] at h; cases h; exact ⟨b, d, answers, hnew, hb, hd, hread, rfl⟩
  · rintro ⟨b, d, answers, hnew, hb, hd, hread, rfl⟩
    rw [emitIn_eq, if_neg hnew, hb]
    simp only [hd, hread]
    rfl

theorem chainIn_eq_ok_iff {code : String} : c.chainIn silent active seen id = .ok code ↔
    ∃ b e rest, id ∉ seen ∧ c.workspace.get? id = some b ∧ c.emitIn silent active id = .ok e ∧
      b.next.elim (.ok "") (c.chainIn silent active (id :: seen)) = .ok rest ∧
      e.line ++ rest = code := by
  constructor
  · intro h
    rcases chainIn_cases c active seen id with ⟨_, hs⟩ | ⟨_, _, hs⟩ | hs | ⟨b, e, hnew, hb, he, hs⟩
    · cases hs.symm.trans h
    · cases hs.symm.trans h
    · cases hs.symm.trans h
    · rw [hs] at h
      cases hn : b.next with
      | none =>
        rw [hn] at h
        cases h
        exact ⟨b, e, "", hnew, hb, he, by rw [hn]; rfl, String.append_empty⟩
      | some next =>
        rw [hn] at h
        cases hrest : c.chainIn silent active (id :: seen) next with
        | error fault => simp only [hrest] at h; cases h
        | ok rest =>
          simp only [hrest] at h
          cases h
          exact ⟨b, e, rest, hnew, hb, he, by rw [hn]; exact hrest, rfl⟩
  · rintro ⟨b, e, rest, hnew, hb, he, hrest, rfl⟩
    rw [chainIn_eq, if_neg hnew, he, hb]
    cases hn : b.next with
    | none =>
      rw [hn] at hrest
      cases hrest
      simp only [bind, Except.bind, hn, String.append_empty]
      rfl
    | some next =>
      rw [hn, Option.elim_some] at hrest
      simp only [bind, Except.bind, hn, hrest]
      rfl

/-- Where the walk comes to an end, every way that it could go does. -/
theorem walk_ends :
    (∀ active id, (∃ e, c.emitIn silent active id = .ok e) → Acc (flip c.Follows) (.value, id)) ∧
    ∀ active seen id, (∃ code, c.chainIn silent active seen id = .ok code) →
      Acc (flip c.Follows) (.body, id) := by
  apply walk_induction (c := c)
  · rintro active id ih ⟨e, h⟩
    obtain ⟨b, d, answers, hnew, hb, hd, hread, -⟩ := emitIn_eq_ok_iff.mp h
    obtain ⟨ihemit, ihchain⟩ := ih ⟨b, hb⟩ hnew
    refine Acc.intro _ ?_
    rintro ⟨kind, child⟩ (⟨hb', hd', hslot, hchild⟩ | _)
    cases hb.symm.trans hb'
    cases hd.symm.trans hd'
    obtain ⟨answer, hanswer⟩ := mapM_ok hread _ hslot
    cases kind with
    | value => exact ihemit child (Block.emit_ok_of_read hanswer hchild)
    | body => exact ihchain child (Block.chain_ok_of_read hanswer hchild)
  · rintro active seen id hemit ih ⟨code, h⟩
    obtain ⟨b, e, rest, hnew, hb, he, hrest, -⟩ := chainIn_eq_ok_iff.mp h
    refine Acc.intro _ ?_
    rintro ⟨kind, child⟩ (⟨hb', hd', hslot, hchild⟩ | ⟨hb', hnext⟩)
    · exact (hemit ⟨e, he⟩).inv (.read hb' hd' hslot hchild)
    · cases hb.symm.trans hb'
      rw [hnext] at hrest
      exact ih ⟨b, hb⟩ hnew child ⟨rest, hrest⟩

/-! ### Code in other places -/

/-- What the walk makes of a block or a chain, it makes of it inside fewer blocks too. -/
theorem walk_mono :
    (∀ active id, ∀ active' ⊆ active, ∀ e, c.emitIn silent active id = .ok e →
      c.emitIn silent active' id = .ok e) ∧
    ∀ active seen id, ∀ active' ⊆ active, ∀ seen' ⊆ seen, ∀ code,
      c.chainIn silent active seen id = .ok code → c.chainIn silent active' seen' id = .ok code := by
  apply walk_induction (c := c)
  · intro active id ih active' hactive e h
    obtain ⟨b, d, answers, hnew, hb, hd, hread, hwrite⟩ := emitIn_eq_ok_iff.mp h
    obtain ⟨ihemit, ihchain⟩ := ih ⟨b, hb⟩ hnew
    have hcons : id :: active' ⊆ id :: active := List.cons_subset_cons id hactive
    refine emitIn_eq_ok_iff.mpr ⟨b, d, answers, fun hm => hnew (hactive hm), hb, hd, ?_, hwrite⟩
    refine mapM_eq_ok_iff.mpr ((mapM_eq_ok_iff.mp hread).imp fun slot answer hslot => ?_)
    exact Block.read_mono (fun j e => ihemit j _ hcons e)
      (fun j code => ihchain j _ hcons [] (List.Subset.refl []) code) hslot
  · intro active seen id hemit ih active' hactive seen' hseen code h
    obtain ⟨b, e, rest, hnew, hb, he, hrest, hcode⟩ := chainIn_eq_ok_iff.mp h
    refine chainIn_eq_ok_iff.mpr
      ⟨b, e, rest, fun hm => hnew (hseen hm), hb, hemit active' hactive e he, ?_, hcode⟩
    cases hn : b.next with
    | none => rw [hn] at hrest; exact hrest
    | some next =>
      rw [hn] at hrest
      exact ih ⟨b, hb⟩ hnew next active' hactive _ (List.cons_subset_cons id hseen) rest hrest

/-- A block is written with the code that the blocks in its slots have on their own. -/
theorem rule_of_emit {e : Emission} (h : c.emit id = .ok e) :
    ∃ b d, c.workspace.get? id = some b ∧ c.registry.lookup? b.typeId = some d ∧
      (c.siteOf d b).rule d.rule = .ok e := by
  rw [emit_eq_emitIn] at h
  obtain ⟨b, d, answers, -, hb, hd, hread, rfl⟩ := emitIn_eq_ok_iff.mp h
  have hanswers : d.rule.reads.mapM (b.read c.emit c.chain) = .ok answers := by
    rw [funext c.emit_eq_emitIn, funext c.chain_eq_chainIn]
    refine mapM_eq_ok_iff.mpr ((mapM_eq_ok_iff.mp hread).imp fun slot answer hslot => ?_)
    exact Block.read_mono (fun j e => walk_mono.1 _ j [] (List.nil_subset _) e)
      (fun j code => walk_mono.2 _ _ j [] (List.nil_subset _) [] (List.nil_subset _) code) hslot
  refine ⟨b, d, hb, hd, (rule_siteOf d b c.emit c.chain).trans ?_⟩
  rw [hanswers]
  rfl

/-- A chain is the line of its first block and the chain of the next one. -/
theorem line_of_chain {code : String} (h : c.chain id = .ok code) :
    ∃ b e rest, c.workspace.get? id = some b ∧ c.emit id = .ok e ∧
      b.next.elim (.ok "") c.chain = .ok rest ∧ e.line ++ rest = code := by
  rw [chain_eq_chainIn] at h
  obtain ⟨b, e, rest, -, hb, he, hrest, hcode⟩ := chainIn_eq_ok_iff.mp h
  refine ⟨b, e, rest, hb, (c.emit_eq_emitIn id).trans he, ?_, hcode⟩
  cases hn : b.next with
  | none => rw [hn] at hrest; exact hrest
  | some next =>
    rw [hn] at hrest
    exact (c.chain_eq_chainIn next).trans
      (walk_mono.2 _ _ next [] (List.nil_subset _) [] (List.nil_subset _) rest hrest)

/-! ### Any links -/

/-- A way of the walk that has no end. -/
def Endless (c : Compiler) (start : Reading × BlockId) : Prop :=
  ∃ path : Nat → Reading × BlockId, path 0 = start ∧ ∀ n, c.Follows (path n) (path (n + 1))

theorem endless_iff {start : Reading × BlockId} :
    c.Endless start ↔ ¬ Acc (flip c.Follows) start :=
  (not_acc_iff_exists_descending_chain (r := flip c.Follows)).symm

theorem endless_of_circle {start x : Reading × BlockId}
    (hway : Relation.ReflTransGen c.Follows start x) (hback : Relation.TransGen c.Follows x x) :
    c.Endless start := by
  refine endless_iff.mpr fun hacc => ?_
  induction hacc with
  | intro start _ ih =>
    obtain ⟨y, hstep, hrest⟩ := Relation.TransGen.head'_iff.mp (hback.trans_right hway)
    exact ih y hstep hrest

/-- Over any links at all the walk comes to an end without fuel. A circle that it reports is one
of links, and it is reported only where the walk would go on for ever; a program is reported only
where it would not. -/
theorem chain_on_any_links (c : Compiler) (root : BlockId) :
    c.chain root = c.chainIn silent [] [] root ∧
    (∀ a, c.chain root = .error (.cycle a) → c.workspace.Reaches root a ∧
      Relation.TransGen c.workspace.LinkTo a a ∧ c.Endless (.body, root)) ∧
    ((∃ code, c.chain root = .ok code) → ¬ c.Endless (.body, root)) := by
  rw [chain_eq_chainIn]
  refine ⟨rfl, fun a h => ?_, fun h => ?_⟩
  · obtain ⟨kind, hway, hback⟩ := walk_cycle.2 [] [] root h (by simp)
    have hback := hback.resolve_left (by simp)
    exact ⟨hway.lift Prod.snd fun x y => Follows.linkTo,
      hback.lift Prod.snd fun x y => Follows.linkTo, endless_of_circle hway hback⟩
  · exact fun hendless => endless_iff.mp hendless (walk_ends.2 [] [] root h)

/-- A loop whose body leads back to the loop, and a sum of one block with itself. -/
theorem chain_on_any_links_knot :
    let loop : Compiler :=
      { registry := Registry.empty.registerAll (Catalogue.passages ++ Catalogue.controlFlow)
        workspace :=
          { blocks :=
              #[some { id := ⟨0⟩, typeId := "python_while", inputs := Dict.empty.insert "DO" ⟨1⟩ },
                some { id := ⟨1⟩, typeId := "python_pass", next := some ⟨0⟩ }]
            top := [] }
        options := {} }
    let sum : Compiler :=
      { registry := Registry.empty.registerAll (Catalogue.values ++ Catalogue.operators)
        workspace :=
          { blocks :=
              #[some { id := ⟨0⟩, typeId := "python_arithmetic",
                       inputs := (Dict.empty.insert "A" ⟨1⟩).insert "B" ⟨1⟩ },
                some { id := ⟨1⟩, typeId := "python_number" }]
            top := [] }
        options := {} }
    (loop.chain ⟨0⟩ = .error (.cycle ⟨0⟩) ∧ Relation.TransGen loop.workspace.LinkTo ⟨0⟩ ⟨0⟩ ∧
      loop.Endless (.body, ⟨0⟩)) ∧
    sum.chain ⟨0⟩ = .ok "0 + 0\n" ∧ ¬ sum.Endless (.body, ⟨0⟩) := by
  intro loop sum
  have hloop : loop.chain ⟨0⟩ = .error (.cycle ⟨0⟩) := by decide +kernel
  have hsum : sum.chain ⟨0⟩ = .ok "0 + 0\n" := by decide +kernel
  exact ⟨⟨hloop, ((chain_on_any_links loop ⟨0⟩).2.1 _ hloop).2⟩, hsum,
    (chain_on_any_links sum ⟨0⟩).2.2 ⟨_, hsum⟩⟩

end Compiler

end Blockwright
