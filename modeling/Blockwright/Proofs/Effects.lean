import Blockwright.Proofs.Acceptance
import Blockwright.Proofs.Hanging
import Blockwright.Proofs.Typing

/-!
# What connections and deletions change

A connection takes a block off its old place and hangs it, with the chain that follows it, at its new
one. A chain that stood there is hung behind it, or goes to the top level where nothing can follow.
`Spliced` says so, and that all blocks but the five that are involved stay as they are. Main
statements: `Workspace.after_connect_splices` and, for deletions, `Workspace.after_delete_removes`.
-/

namespace Blockwright

/-- Both ways to connect a block. -/
def Edit.connect (registry : Registry) (p : BlockId) (link : Link) (c : BlockId) : Edit Unit :=
  match link with
  | .input slot => Edit.connectInput registry p slot c
  | .next => Edit.connectNext registry p c

namespace Workspace

variable {ws ws' : Workspace} {registry : Registry} {id p c j old tail : BlockId} {link : Link}
  {ids front : List BlockId}

/-! ### Chains -/

/-- `ids` are the blocks of the chain that begins with `id`. -/
inductive Chain (ws : Workspace) : BlockId → List BlockId → Prop
  | last {id : BlockId} (hid : ws.Live id) (hnext : ws.target? id .next = none) : Chain ws id [id]
  | cons {id n : BlockId} {ids : List BlockId} (hnext : ws.target? id .next = some n)
      (hrest : Chain ws n ids) : Chain ws id (id :: ids)

namespace Chain

theorem aboveEq (hf : ws.Forest) (h : ws.Chain id ids) : ∀ j ∈ ids, ws.AboveEq id j := by
  induction h with
  | last hid hnext =>
    intro j hj
    rw [List.mem_singleton] at hj
    exact hj ▸ .refl
  | cons hnext _ ih =>
    intro j hj
    rcases List.mem_cons.mp hj with rfl | hj
    · exact .refl
    · exact .head ⟨.next, (hf.linked ..).mp hnext⟩ (ih j hj)

theorem congr (h : ws.Chain id ids) (hlive : ∀ j, ws'.Live j ↔ ws.Live j)
    (hsame : ∀ j ∈ ids, ws'.target? j .next = ws.target? j .next) : ws'.Chain id ids := by
  induction h with
  | last hid hnext => exact .last ((hlive _).mpr hid) ((hsame _ (by simp)).trans hnext)
  | cons hnext _ ih =>
    exact .cons ((hsame _ (by simp)).trans hnext) (ih fun j hj => hsame j (by simp [hj]))

theorem of_singleton (h : ws.Chain id [tail]) : tail = id ∧ ws.target? tail .next = none := by
  cases h with
  | last _ hnext => exact ⟨rfl, hnext⟩
  | cons _ hrest => cases hrest

theorem uncons (h : ws.Chain id (j :: ids)) (hne : ids ≠ []) :
    j = id ∧ ∃ n, ws.target? id .next = some n ∧ ws.Chain n ids := by
  cases h with
  | last _ _ => exact absurd rfl hne
  | cons hnext hrest => exact ⟨rfl, _, hnext, hrest⟩

theorem next_tail (h : ws.Chain id (front ++ [tail])) : ws.target? tail .next = none := by
  induction front generalizing id with
  | nil => exact h.of_singleton.2
  | cons a front ih =>
    obtain ⟨-, n, -, hrest⟩ := h.uncons (by simp)
    exact ih hrest

/-- A chain that goes on behind its last block. -/
theorem extend (h : ws.Chain id (front ++ [tail]))
    (hsame : ∀ j, j ≠ tail → ws'.target? j .next = ws.target? j .next)
    (htail : ws'.target? tail .next = some old) (hold : ws'.Chain old ids) :
    ws'.Chain id (front ++ tail :: ids) := by
  induction front generalizing id with
  | nil =>
    obtain ⟨rfl, -⟩ := h.of_singleton
    exact .cons htail hold
  | cons a front ih =>
    obtain ⟨rfl, n, hnext, hrest⟩ := h.uncons (by simp)
    -- something follows `a`, and nothing the last block
    have hne : a ≠ tail := by
      rintro rfl
      rw [hrest.next_tail] at hnext
      cases hnext
    exact .cons ((hsame a hne).trans hnext) (ih hrest)

end Chain

theorem chain_of_chainTail {fuel : Nat} (h : Edit.chainTail ws fuel id = .ok tail) :
    ∃ front, ws.Chain id (front ++ [tail]) := by
  induction fuel generalizing id with
  | zero => cases h
  | succ fuel ih =>
    rw [Edit.chainTail] at h
    cases hb : ws.get? id with
    | none => simp [Workspace.get, hb, bind, Except.bind] at h
    | some b =>
      rw [get_of_get? hb] at h
      have hnext : ws.target? id .next = b.next := target?_of_get? hb .next
      cases hn : b.next with
      | none =>
        simp only [bind, Except.bind, hn, Except.ok.injEq] at h
        exact ⟨[], h ▸ .last ⟨b, hb⟩ (hnext.trans hn)⟩
      | some n =>
        simp only [bind, Except.bind, hn] at h
        obtain ⟨front, hfront⟩ := ih h
        exact ⟨id :: front, .cons (hnext.trans hn) hfront⟩

theorem Forest.chainTail_chain (hf : ws.Forest) (hid : ws.Live id) :
    ∃ front tail, Edit.chainTail ws (ws.capacity + 1) id = .ok tail ∧
      ws.Chain id (front ++ [tail]) := by
  obtain ⟨tail, htail, -⟩ := Edit.chainTail_eq hf hid (Nat.lt_succ_of_lt (hf.height_lt hid))
  obtain ⟨front, hfront⟩ := chain_of_chainTail htail
  exact ⟨front, tail, htail, hfront⟩

/-! ### What stays as it is -/

theorem cutFrom_of_not_parent (h : ∀ l, ws.parent? id ≠ some (j, l)) :
    ws.cutFrom id j = ws.get? j := by
  rw [cutFrom]
  cases hpar : ws.parent? id with
  | none => rfl
  | some at? =>
    obtain ⟨q, l⟩ := at?
    have hne : q ≠ j := by rintro rfl; exact h l hpar
    simp [hne]

theorem cutFrom_of_parent (h : ws.parent? id = some (p, link)) :
    ws.cutFrom id p = (ws.get? p).map fun b => b.withoutLink link := by
  rw [cutFrom, h]
  exact if_pos rfl

theorem get?_plug_of_ne (hp : p ≠ j) (hc : c ≠ j) : (ws.plug p link c).get? j = ws.get? j := by
  rw [get?_plug]
  simp [hp, hc]

theorem get?_swapped_of_ne (hf : ws.Forest) (hp : j ≠ p) (hc : j ≠ c)
    (hold : (ws.release c).target? p link ≠ some j) :
    (ws.swapped p link c).get? j = ws.cutFrom c j := by
  have hfreed : (ws.release c).get? j = ws.cutFrom c j := get?_release_of_ne hc
  rw [swapped, get?_plug_of_ne hp.symm hc.symm]
  cases ht : (ws.release c).target? p link with
  | none => exact hfreed
  | some old =>
    have hne : j ≠ old := by rintro rfl; exact hold ht
    have hpar := ((hf.release c).linked p link old).mp ht
    refine (get?_release_of_ne hne).trans ((cutFrom_of_not_parent fun l hl => ?_).trans hfreed)
    rw [hpar] at hl
    cases hl
    exact hp rfl

/-- No link changes on the way but that of `p`. -/
theorem target?_swapped (hf : ws.Forest) (hp : ws.Live p) (k : Link) :
    (ws.swapped p link c).target? j k =
      if (p, link) = (j, k) then some c else (ws.release c).target? j k := by
  have hv := hf.vacate p link c
  rw [swapped, target?_plug link ((hv.live p).mpr hp)]
  split
  · rfl
  · next hne =>
    cases ht : (ws.release c).target? p link with
    | none => rfl
    | some old =>
      have hpar := ((hf.release c).linked p link old).mp ht
      exact (target?_release hpar j k).trans (if_neg hne)

theorem live_swapped_old (hf : ws.Forest) (hold : (ws.release c).target? p link = some old) :
    (ws.swapped p link c).Live old :=
  (live_swapped hf old).mpr ((live_release ws c old).mp ((hf.release c).live_target hold))

/-! ### Connections -/

theorem acceptsNext_congr (h : ws'.type? id = ws.type? id) :
    Edit.acceptsNext registry ws' id = Edit.acceptsNext registry ws id := by
  rw [Bool.eq_iff_iff, Edit.acceptsNext_iff, Edit.acceptsNext_iff, h]

theorem Forest.eq_of_target? (hf : ws.Forest) {q : BlockId} {l : Link}
    (h : ws.target? p link = some c) (h' : ws.target? q l = some c) : (q, l) = (p, link) := by
  have hpar := (hf.linked p link c).mp h
  rw [(hf.linked q l c).mp h'] at hpar
  exact Option.some.inj hpar

/-- `ws'` is `ws` with `c` at a link of `p`. In `freed` the block `c` has been taken off its old place;
its chain there is `front`, and `tail` at the end. -/
structure Spliced (registry : Registry) (ws freed ws' : Workspace) (p : BlockId) (link : Link)
    (c : BlockId) (front : List BlockId) (tail : BlockId) : Prop where
  held : ws'.target? p link = some c
  /-- The block has moved: no other link leads to it. -/
  once : ∀ q l, ws'.target? q l = some c → (q, l) = (p, link)
  alone : freed.target? p link = none → ws'.Chain c (front ++ [tail])
  /-- A chain that stood there comes behind the chain of `c`, if something can follow. -/
  joined : ∀ old, freed.target? p link = some old → takesChain registry ws p link = true →
    Edit.acceptsNext registry ws tail = true →
    ∃ rest, freed.Chain old rest ∧ ws'.Chain c (front ++ tail :: rest)
  /-- Otherwise what stood there is a stack of its own. -/
  displaced : ∀ old, freed.target? p link = some old →
    ¬ (takesChain registry ws p link = true ∧ Edit.acceptsNext registry ws tail = true) →
    ws'.Chain c (front ++ [tail]) ∧ old ∈ ws'.top ∧ ws'.parent? old = none ∧
      ∃ rest, freed.Chain old rest ∧ ws'.Chain old rest
  live : ∀ j, ws'.Live j ↔ ws.Live j
  /-- Its old parent has lost the link to it, and nothing else. -/
  left : ∀ q l, ws.parent? c = some (q, l) → q ≠ p → freed.target? p link ≠ some q → q ≠ tail →
    ws'.get? q = (ws.get? q).map fun b => b.withoutLink l
  unchanged : ∀ j, j ≠ p → j ≠ c → (∀ l, ws.parent? c ≠ some (j, l)) →
    freed.target? p link ≠ some j → j ≠ tail → ws'.get? j = ws.get? j

section

variable (hf : ws.Forest) (h : Connectable registry ws p link c)
include hf h

theorem Connectable.forest_swapped : (ws.swapped p link c).Forest :=
  hf.swapped h.live_parent h.live_child h.apart

theorem Connectable.target?_self : (ws.swapped p link c).target? p link = some c := by
  rw [target?_swapped hf h.live_parent, if_pos rfl]

theorem Connectable.not_above : ¬ (ws.swapped p link c).AboveEq c p := fun hcp =>
  (h.forest_swapped hf).acyclic p
    (Relation.TransGen.trans_left ((h.forest_swapped hf).above_target (h.target?_self hf)) hcp)

/-- A chain without `p` is the same before `c` is hung up. -/
theorem Connectable.chain_freed (hchain : (ws.swapped p link c).Chain id ids)
    (hid : ¬ (ws.swapped p link c).AboveEq id p) : (ws.release c).Chain id ids := by
  have hsw := h.forest_swapped hf
  refine hchain.congr (fun j => (live_release ws c j).trans (live_swapped hf j).symm) fun j hj => ?_
  have hne : (p, link) ≠ (j, .next) := by
    intro heq
    obtain ⟨rfl, -⟩ := Prod.mk.inj heq
    exact hid (hchain.aboveEq hsw p hj)
  rw [target?_swapped hf h.live_parent, if_neg hne]

/-- What stood at the link is apart from the chain that takes its place. -/
theorem Connectable.old_chain (hold : (ws.release c).target? p link = some old) :
    ∃ rest, (ws.swapped p link c).Chain old rest ∧ (ws.release c).Chain old rest ∧
      ∀ j ∈ rest, ¬ (ws.swapped p link c).AboveEq c j := by
  have hsw := h.forest_swapped hf
  obtain ⟨hpar, hoc⟩ := hf.swapped_old h.live_parent h.live_child h.apart hold
  obtain ⟨front, tail, -, hchain⟩ := hsw.chainTail_chain (live_swapped_old hf hold)
  have hop : ¬ (ws.swapped p link c).AboveEq old p := fun hop =>
    hoc (hop.tail ⟨link, (hsw.linked ..).mp (h.target?_self hf)⟩)
  refine ⟨front ++ [tail], hchain, h.chain_freed hf hchain hop, fun j hj hcj => ?_⟩
  rcases AboveEq.total (hchain.aboveEq hsw j hj) hcj with hlow | hlow
  · exact hoc hlow
  · rcases aboveEq_iff.mp hlow with rfl | hlow
    · exact hoc .refl
    · exact not_above_of_parent?_none hpar hlow

/-- What stood there is not hung up again. -/
theorem Connectable.spliced_swapped (hchain : (ws.swapped p link c).Chain c (front ++ [tail]))
    (hnot : ∀ old, (ws.release c).target? p link = some old →
      ¬ (takesChain registry ws p link = true ∧ Edit.acceptsNext registry ws tail = true)) :
    Spliced registry ws (ws.release c) (ws.swapped p link c) p link c front tail where
  held := h.target?_self hf
  once _ _ := (h.forest_swapped hf).eq_of_target? (h.target?_self hf)
  alone _ := hchain
  joined old hold htakes haccepts := absurd ⟨htakes, haccepts⟩ (hnot old hold)
  displaced old hold _ := by
    have hpar := (hf.swapped_old h.live_parent h.live_child h.apart hold).1
    obtain ⟨rest, hrest, hfreed, -⟩ := h.old_chain hf hold
    have htop : old ∈ (ws.swapped p link c).top :=
      ((h.forest_swapped hf).mem_top old).mpr ⟨live_swapped_old hf hold, hpar⟩
    exact ⟨hchain, htop, hpar, rest, hfreed, hrest⟩
  live := live_swapped hf
  left q _ hq hp hold _ :=
    (get?_swapped_of_ne hf hp (hf.ne_of_parent? hq) hold).trans (cutFrom_of_parent hq)
  unchanged _ hp hc hparent hold _ :=
    (get?_swapped_of_ne hf hp hc hold).trans (cutFrom_of_not_parent hparent)

/-- What stood there is hung behind the chain of `c`. -/
theorem Connectable.spliced_plug (hchain : (ws.swapped p link c).Chain c (front ++ [tail]))
    (hold : (ws.release c).target? p link = some old)
    (haccepts : takesChain registry ws p link = true ∧ Edit.acceptsNext registry ws tail = true) :
    Spliced registry ws (ws.release c) ((ws.swapped p link c).plug tail .next old) p link c front
      tail := by
  have hsw := h.forest_swapped hf
  have hbelow : (ws.swapped p link c).AboveEq c tail := hchain.aboveEq hsw tail (by simp)
  have htail : (ws.swapped p link c).Live tail := by
    rcases aboveEq_iff.mp hbelow with rfl | hbelow
    · exact (live_swapped hf _).mpr h.live_child
    · exact hbelow.live
  have htarget := target?_plug (c := old) .next htail
  have hne : tail ≠ p := by rintro rfl; exact h.not_above hf hbelow
  obtain ⟨rest, hrest, hfreed, hapart⟩ := h.old_chain hf hold
  have hsame : ∀ j, j ≠ tail → ((ws.swapped p link c).plug tail .next old).target? j .next =
      (ws.swapped p link c).target? j .next := fun j hj => by
    rw [htarget, if_neg fun heq => hj (Prod.mk.inj heq).1.symm]
  have hkept : ∀ j, j ≠ p → j ≠ c → (ws.release c).target? p link ≠ some j → j ≠ tail →
      ((ws.swapped p link c).plug tail .next old).get? j = ws.cutFrom c j := fun j hp hc hj htail => by
    rw [get?_plug_of_ne htail.symm fun heq => hj (heq ▸ hold)]
    exact get?_swapped_of_ne hf hp hc hj
  refine ⟨?_, fun q l hq => ?_, fun hnone => ?_, fun old' hold' _ _ => ?_,
    fun _ _ hnot => absurd haccepts hnot, fun j => ?_, fun q l hq hp hj htail => ?_,
    fun j hp hc hparent hj htail => ?_⟩
  · rw [htarget, if_neg fun heq => hne (Prod.mk.inj heq).1]
    exact h.target?_self hf
  · rw [htarget] at hq
    split at hq
    · -- what is hung behind the chain of `c` is not `c` itself
      cases hq
      exact absurd .refl (hf.swapped_old h.live_parent h.live_child h.apart hold).2
    · exact hsw.eq_of_target? (h.target?_self hf) hq
  · rw [hold] at hnone
    cases hnone
  · rw [hold] at hold'
    cases hold'
    refine ⟨rest, hfreed, hchain.extend hsame (by rw [htarget, if_pos rfl]) ?_⟩
    refine hrest.congr (live_plug tail old .next) fun j hj => hsame j ?_
    rintro rfl
    exact hapart _ hj hbelow
  · exact (live_plug tail old .next j).trans (live_swapped hf j)
  · exact (hkept q hp (hf.ne_of_parent? hq) hj htail).trans (cutFrom_of_parent hq)
  · exact (hkept j hp hc hj htail).trans (cutFrom_of_not_parent hparent)

theorem Connectable.spliced : ∃ front tail, (ws.release c).Chain c (front ++ [tail]) ∧
    Spliced registry ws (ws.release c) (ws.connected registry p link c) p link c front tail := by
  obtain ⟨front, tail, htail, hchain⟩ :=
    (h.forest_swapped hf).chainTail_chain ((live_swapped hf c).mpr h.live_child)
  refine ⟨front, tail, h.chain_freed hf hchain (h.not_above hf), ?_⟩
  have hnext : Edit.acceptsNext registry (ws.swapped p link c) tail =
      Edit.acceptsNext registry ws tail := acceptsNext_congr (Typed.type?_swapped ..)
  rw [connected]
  split
  · next old hold =>
    split
    · next htakes =>
      rw [rejoined, htail]
      dsimp only
      rw [hnext]
      split
      · next haccepts => exact h.spliced_plug hf hchain hold ⟨htakes, haccepts⟩
      · next hnot => exact h.spliced_swapped hf hchain fun _ _ hboth => hnot hboth.2
    · next hnot => exact h.spliced_swapped hf hchain fun _ _ hboth => hnot hboth.1
  · next hnone =>
    exact h.spliced_swapped hf hchain fun old hold => by rw [hnone] at hold; cases hold

end

theorem apply_connect_inv (hf : ws.Forest)
    (h : (Edit.connect registry p link c).apply ws = (.ok (), ws')) :
    Connectable registry ws p link c ∧ ws' = ws.connected registry p link c := by
  cases link with
  | input slot =>
    have hconnect : Connectable registry ws p (.input slot) c :=
      (Edit.connectInput_ok_iff hf).mp (congrArg Prod.fst h)
    exact ⟨hconnect, congrArg Prod.snd (h.symm.trans (Edit.apply_connectInput hf hconnect))⟩
  | next =>
    have hconnect : Connectable registry ws p .next c :=
      (Edit.connectNext_ok_iff hf).mp (congrArg Prod.fst h)
    exact ⟨hconnect, congrArg Prod.snd (h.symm.trans (Edit.apply_connectNext hf hconnect))⟩

/-- After every history, a connection that succeeds splices the chain of the block in at its new
place, wherever the block came from, and leaves all other blocks as they were. -/
theorem after_connect_splices (made registry : Registry) (ops : List Operation) (p : BlockId)
    (link : Link) (c : BlockId) (ws' : Workspace)
    (h : (Edit.connect registry p link c).apply (after made ops) = (.ok (), ws')) :
    ∃ freed front tail, (Edit.detach c).apply (after made ops) = (.ok (), freed) ∧
      freed.Chain c (front ++ [tail]) ∧
      Spliced registry (after made ops) freed ws' p link c front tail := by
  have hf := after_forest made ops
  obtain ⟨hconnect, rfl⟩ := apply_connect_inv hf h
  obtain ⟨front, tail, hchain, hspliced⟩ := hconnect.spliced hf
  exact ⟨_, front, tail, Edit.apply_detach hf hconnect.live_child, hchain, hspliced⟩

def stepRegistry : Registry :=
  ⟨[{ schema := .statement "step", rule := .constant "pass" }], by simp⟩

/-- Four steps in a chain. -/
def stepHistory : List Operation :=
  [ .add "step", .add "step", .add "step", .add "step", .connectNext ⟨0⟩ ⟨1⟩, .connectNext ⟨1⟩ ⟨2⟩,
    .connectNext ⟨2⟩ ⟨3⟩ ]

/-- The third step has moved up, with the fourth behind it, and the second comes last. -/
def movedSteps : Workspace where
  blocks :=
    #[some { id := ⟨0⟩, typeId := "step", next := some ⟨2⟩ },
      some { id := ⟨1⟩, typeId := "step", parent := some (⟨3⟩, .next) },
      some { id := ⟨2⟩, typeId := "step", next := some ⟨3⟩, parent := some (⟨0⟩, .next) },
      some { id := ⟨3⟩, typeId := "step", next := some ⟨1⟩, parent := some (⟨2⟩, .next) }]
  top := [⟨0⟩]

theorem connect_stepHistory :
    (Edit.connect stepRegistry ⟨0⟩ .next ⟨2⟩).apply (after stepRegistry stepHistory) =
      (.ok (), movedSteps) := by decide +kernel

theorem after_connect_splices_upward :
    (Edit.connect stepRegistry ⟨0⟩ .next ⟨2⟩).apply (after stepRegistry stepHistory) =
      (.ok (), movedSteps) ∧
    ∃ freed front tail,
      (Edit.detach ⟨2⟩).apply (after stepRegistry stepHistory) = (.ok (), freed) ∧
      freed.Chain ⟨2⟩ (front ++ [tail]) ∧
      Spliced stepRegistry (after stepRegistry stepHistory) freed movedSteps ⟨0⟩ .next ⟨2⟩ front
        tail :=
  ⟨connect_stepHistory, after_connect_splices _ _ _ _ _ _ _ connect_stepHistory⟩

/-! ### Deletions -/

@[simp] theorem capacity_release (ws : Workspace) (id : BlockId) :
    (ws.release id).capacity = ws.capacity := by
  cases h : ws.parent? id with
  | none => rw [release_of_parent?_none h]
  | some at? =>
    rw [release, h]
    show Workspace.capacity (Workspace.update _ _ _) = _
    simp

@[simp] theorem capacity_plug (ws : Workspace) (p : BlockId) (link : Link) (c : BlockId) :
    (ws.plug p link c).capacity = ws.capacity := by
  show Workspace.capacity (Workspace.update _ _ _) = _
  simp

theorem capacity_prune (fuel : Nat) (ws : Workspace) (pending : List BlockId) :
    (Edit.prune ws fuel pending).capacity = ws.capacity := by
  fun_induction Edit.prune ws fuel pending with
  | case1 => rfl
  | case2 => rfl
  | case3 ws fuel id pending hb ih => exact ih
  | case4 ws fuel id pending b hb ih => rw [ih, capacity_drop]

theorem capacity_deleted (ws : Workspace) (id : BlockId) :
    (ws.deleted id).capacity = ws.capacity :=
  (capacity_prune ..).trans (capacity_release ws id)

theorem capacity_swapped (ws : Workspace) (p : BlockId) (link : Link) (c : BlockId) :
    (ws.swapped p link c).capacity = ws.capacity := by
  rw [swapped, capacity_plug]
  cases (ws.release c).target? p link <;> simp

theorem capacity_connected (registry : Registry) (ws : Workspace) (p : BlockId) (link : Link)
    (c : BlockId) : (ws.connected registry p link c).capacity = ws.capacity := by
  have hrejoined : ∀ ws old, (rejoined registry ws c old).capacity = ws.capacity := by
    intro ws old
    rw [rejoined]
    split
    · split <;> simp
    · rfl
  rw [connected]
  split
  · split
    · rw [hrejoined, capacity_swapped]
    · exact capacity_swapped ws p link c
  · exact capacity_swapped ws p link c

/-- Numbers are only ever added. -/
theorem Move.capacity_le (h : Move registry ws ws') : ws.capacity ≤ ws'.capacity := by
  cases h with
  | stay => exact Nat.le_refl _
  | add typeId => simp [added, capacity]
  | change id f hf => simp
  | release id => simp
  | connect p link c h => rw [capacity_connected]
  | delete id => rw [capacity_deleted]

theorem Forest.capacity_le_run (hf : ws.Forest) (registry : Registry) (later : List Operation) :
    ws.capacity ≤ (later.foldl (perform registry) ws).capacity := by
  induction later generalizing ws with
  | nil => exact Nat.le_refl _
  | cons op later ih =>
    have hmove : Move registry ws (ws.perform registry op) := perform_move hf op
    exact Nat.le_trans hmove.capacity_le (ih (hf.move hmove))

/-- After every history, deleting a live block removes the blocks that links lead to from it, the
link to it and its place at the top level, and changes nothing else. No later block gets the number
of a removed one. -/
theorem after_delete_removes (made : Registry) (ops : List Operation) (id : BlockId)
    (hid : (after made ops).Live id) :
    let ws := after made ops
    ∃ ws', (Edit.delete id).apply ws = (.ok (), ws') ∧
      (∀ j, ws'.Live j ↔ ws.Live j ∧ ¬ ws.Reaches id j) ∧
      (∀ j, ws'.Live j → ws'.get? j = ws.cutFrom id j) ∧
      ws'.top = ws.top.filter (· ≠ id) ∧
      ∀ j, ws.Reaches id j → ∀ (registry : Registry) (later : List Operation) (typeId : String),
        ((Edit.add typeId).apply (later.foldl (perform registry) ws')).1 ≠ .ok j := by
  intro ws
  have hf : ws.Forest := after_forest made ops
  obtain ⟨ws', hdelete, hgone, hkept, htop⟩ := (hf.local hid).delete
  obtain rfl : ws.deleted id = ws' :=
    congrArg Prod.snd ((Edit.apply_delete hf hid).symm.trans hdelete)
  have hcut : ∀ j, (ws.cutFrom id j).isSome = (ws.get? j).isSome := by
    intro j
    rw [cutFrom]
    cases ws.parent? id with
    | none => rfl
    | some at? => dsimp only; split <;> simp
  have hlive : ∀ j, (ws.deleted id).Live j ↔ ws.Live j ∧ ¬ ws.Reaches id j := by
    intro j
    by_cases hj : ws.Reaches id j
    · simp [Live, hgone j hj, hj]
    · simp only [Live, hkept j hj, hj, not_false_eq_true, and_true, ← Option.isSome_iff_exists, hcut]
  refine ⟨_, hdelete, hlive, fun j hj => hkept j ((hlive j).mp hj).2, htop,
    fun j hj registry later typeId hadd => ?_⟩
  have hj' : j.index < ws.capacity := by
    rcases aboveEq_iff.mp (hf.reaches_iff.mp hj) with rfl | habove
    · exact hid.lt_capacity
    · exact habove.live.lt_capacity
  have hrun := (hf.deleted id).capacity_le_run registry later
  rw [capacity_deleted] at hrun
  have hnew : (⟨(later.foldl (perform registry) (ws.deleted id)).capacity⟩ : BlockId) = j :=
    Except.ok.inj hadd
  rw [← hnew] at hj'
  exact absurd hj' (Nat.not_lt.mpr hrun)

theorem live_stepHistory : (after stepRegistry stepHistory).Live ⟨1⟩ :=
  Option.isSome_iff_exists.mp (by decide +kernel)

theorem after_delete_removes_steps :
    (after stepRegistry stepHistory).Live ⟨1⟩ ∧
    let ws := after stepRegistry stepHistory
    ∃ ws', (Edit.delete ⟨1⟩).apply ws = (.ok (), ws') ∧
      (∀ j, ws'.Live j ↔ ws.Live j ∧ ¬ ws.Reaches ⟨1⟩ j) ∧
      (∀ j, ws'.Live j → ws'.get? j = ws.cutFrom ⟨1⟩ j) ∧
      ws'.top = ws.top.filter (· ≠ ⟨1⟩) ∧
      ∀ j, ws.Reaches ⟨1⟩ j → ∀ (registry : Registry) (later : List Operation) (typeId : String),
        ((Edit.add typeId).apply (later.foldl (perform registry) ws')).1 ≠ .ok j :=
  ⟨live_stepHistory, after_delete_removes stepRegistry stepHistory ⟨1⟩ live_stepHistory⟩

end Workspace

end Blockwright
