import Blockwright.Script.Start

/-!
# Scripts and their time

A script only adds to its outputs and to the time that it has taken, and it drops arguments from the
front only (`Process.later_run`). Of its time limit it knows nothing but whether it is over, so a script
that ends in time ends in the same way if it may take longer (`Process.run_withLimit`,
`Invocation.start_of_ne_timedOut`).
-/

namespace Blockwright

namespace Script.Process

/-! ### What a script keeps -/

/-- What stays as it is from `p` to `q`, and what is only added to. -/
structure Later (p q : Process) : Prop where
  name : q.name = p.name
  file? : q.file? = p.file?
  limit : q.limit = p.limit
  milliseconds : p.milliseconds ≤ q.milliseconds
  stdout : p.stdout <+: q.stdout
  stderr : p.stderr <+: q.stderr
  arguments : q.arguments <:+ p.arguments
  ended : p.hasEnded = true → q.hasEnded = true

namespace Later

variable {p q r : Process}

theorem refl (p : Process) : Later p p :=
  ⟨rfl, rfl, rfl, Nat.le_refl _, List.prefix_rfl, List.prefix_rfl, List.suffix_rfl, id⟩

theorem trans (h : Later p q) (h' : Later q r) : Later p r :=
  ⟨h'.name.trans h.name, h'.file?.trans h.file?, h'.limit.trans h.limit,
    Nat.le_trans h.milliseconds h'.milliseconds, h.stdout.trans h'.stdout, h.stderr.trans h'.stderr,
    h'.arguments.trans h.arguments, fun hp => h'.ended (h.ended hp)⟩

/-- Where the outputs go, the status and the signal are no part of it. -/
theorem congr {p' q' : Process} (h : Later p q)
    (hp : p' = { p with out := p'.out, err := p'.err, status := p'.status, isKilled := p'.isKilled })
    (hq : q' = { q with out := q'.out, err := q'.err, status := q'.status, isKilled := q'.isKilled }) :
    Later p' q' := by
  rw [hp, hq]
  exact ⟨h.name, h.file?, h.limit, h.milliseconds, h.stdout, h.stderr, h.arguments, h.ended⟩

end Later

variable (p : Process)

theorem later_withStatus (status : Nat) : Later p (p.withStatus status) :=
  (Later.refl p).congr rfl rfl

theorem later_write (target : Option Stream) (bytes : List UInt8) : Later p (p.write target bytes) := by
  unfold write
  split
  · exact { Later.refl p with stdout := List.prefix_append _ _ }
  · exact { Later.refl p with stderr := List.prefix_append _ _ }
  · exact .refl p

theorem later_redirect (rs : List Redirection) : Later p (p.redirect rs) := by
  unfold redirect
  induction rs generalizing p with
  | nil => exact .refl p
  | cons r rs ih =>
    refine Later.trans ?_ (ih _)
    dsimp only
    cases r.source <;> exact (Later.refl p).congr rfl rfl

theorem later_concatenate (paths : List String) : Later p (p.concatenate paths) := by
  induction paths generalizing p with
  | nil => exact .refl p
  | cons path paths ih =>
    refine Later.trans ?_ (ih _)
    split
    · exact .refl p
    · split
      · exact later_write p _ _
      · exact (later_write p _ _).trans (later_withStatus _ 1)

theorem later_finish : Later p p.finish := { Later.refl p with ended := fun _ => rfl }

theorem later_kill (arguments : List String) : Later p (p.kill arguments) := by
  unfold kill
  split
  · exact later_withStatus p 1
  · split
    · exact .refl p
    · exact { Later.refl p with ended := fun _ => rfl }

variable {p}

theorem later_program? {name : String} {arguments : List String} {q : Process}
    (h : p.program? name arguments = some q) : Later p q := by
  refine (later_withStatus p 0).trans ?_
  unfold program? at h
  dsimp only at h
  generalize p.withStatus 0 = p at h ⊢
  split at h
  case h_1 => cases h; exact .refl _
  case h_2 => cases h; exact later_withStatus p 1
  case h_3 => cases h; exact later_concatenate p arguments
  case h_4 => cases h; exact later_write p _ _
  case h_5 =>
    split at h
    · cases h; exact later_withStatus p 2
    · cases h; exact later_write p _ _
  case h_6 =>
    split at h
    · cases h; exact { Later.refl p with milliseconds := Nat.le_add_right _ _ }
    · cases h; exact later_withStatus p 1
  case h_7 => cases h; exact later_withStatus p _
  case h_8 => cases h; exact later_withStatus p _
  case h_9 => cases h; exact later_kill p arguments
  case h_10 => cases h

variable (p)

theorem later_program (line : Nat) (name : String) (arguments : List String) :
    Later p (p.program line name arguments) := by
  unfold program
  cases h : p.program? name arguments with
  | none => exact (later_write p _ _).trans (later_withStatus _ 127)
  | some q => exact later_program? h

theorem later_command (line : Nat) (fields : List String) : Later p (p.command line fields) := by
  unfold command
  split
  · exact later_withStatus p 0
  · exact later_withStatus p 0
  · split
    · exact (later_withStatus p _).trans (later_finish _)
    · exact later_finish p
  · exact { Later.refl p with arguments := List.tail_suffix _ }
  · exact (later_program p _ _ _).trans (later_finish _)
  · exact later_program p _ _ _

theorem later_redirecting (rs : List Redirection) (action : Process → Process)
    (h : Later (p.redirect rs) (action (p.redirect rs))) : Later p (p.redirecting rs action) :=
  ((later_redirect p rs).trans h).congr rfl rfl

theorem Later.ite {q r : Process} {stop : Prop} [Decidable stop] (h : Later p q) (h' : Later q r) :
    Later p (if stop then q else r) := by
  split
  · exact h
  · exact h.trans h'

/-- A script only adds to its outputs and to its time. -/
theorem later_run (c : Command) : Later p (p.run c) := by
  induction c generalizing p with
  | nothing => exact later_withStatus p 0
  | simple words rs line =>
    rw [run]
    refine .ite p (.refl p) ?_
    split
    · exact (later_redirect p rs).trans (later_withStatus _ 0)
    · exact later_redirecting p rs _ (later_command _ _ _)
  | sequence first second ih₁ ih₂ => exact .ite p (ih₁ p) (ih₂ _)
  | both first second ih₁ ih₂ => exact .ite p (ih₁ p) (ih₂ _)
  | either first second ih₁ ih₂ => exact .ite p (ih₁ p) (ih₂ _)
  | negation body ih => exact .ite p (ih p) (later_withStatus _ _)
  | branch condition yes no ih₁ ih₂ ih₃ =>
    refine .ite p (ih₁ p) ?_
    split
    · exact ih₂ _
    · exact ih₃ _
  | choice subject patterns body rest ih₁ ih₂ =>
    rw [run]
    split
    · exact ih₁ p
    · exact ih₂ p
  | redirected body rs ih => exact later_redirecting p rs (fun q => q.run body) (ih _)

/-! ### Time limits -/

/-- The process with another time limit. -/
def withLimit (limit : Nat) (p : Process) : Process := { p with limit }

variable (limit : Nat)

theorem write_withLimit (target : Option Stream) (bytes : List UInt8) :
    (p.withLimit limit).write target bytes = (p.write target bytes).withLimit limit := by
  unfold write
  split <;> rfl

theorem redirect_withLimit (rs : List Redirection) :
    (p.withLimit limit).redirect rs = (p.redirect rs).withLimit limit := by
  unfold redirect
  induction rs generalizing p with
  | nil => rfl
  | cons r rs ih =>
    rw [List.foldl_cons, List.foldl_cons, ← ih]
    congr 1
    cases r.source <;> rfl

theorem concatenate_withLimit (paths : List String) :
    (p.withLimit limit).concatenate paths = (p.concatenate paths).withLimit limit := by
  induction paths generalizing p with
  | nil => rfl
  | cons path paths ih =>
    rw [concatenate, concatenate, ← ih]
    congr 1
    have hfile : (p.withLimit limit).file? path = p.file? path := rfl
    rw [hfile]
    split
    · rfl
    · split
      · exact write_withLimit p limit _ _
      · exact congrArg (withStatus 1) (write_withLimit p limit _ _)

theorem test?_withLimit (arguments : List String) :
    (p.withLimit limit).test? arguments = p.test? arguments := by
  fun_induction test? p arguments with
  | case2 rest ih => rw [test?, ih]
  | _ => simp_all [test?, withLimit]

theorem program?_withLimit (name : String) (arguments : List String) :
    (p.withLimit limit).program? name arguments =
      (p.program? name arguments).map (withLimit limit) := by
  have hstatus : (p.withLimit limit).withStatus 0 = (p.withStatus 0).withLimit limit := rfl
  have htest : ∀ (q : Process) xs, (q.withLimit limit).testStatus xs = q.testStatus xs := by
    intro q xs
    rw [testStatus, test?_withLimit]
    rfl
  unfold program?
  rw [hstatus]
  dsimp only
  generalize p.withStatus 0 = p
  split
  case h_3 => exact congrArg some (concatenate_withLimit p limit arguments)
  case h_4 => exact congrArg some (write_withLimit p limit _ _)
  case h_5 =>
    split
    · rfl
    · exact congrArg some (write_withLimit p limit _ _)
  case h_6 => split <;> rfl
  case h_7 => rw [htest]; rfl
  case h_8 => rw [htest]; rfl
  case h_9 =>
    refine congrArg some ?_
    unfold kill
    split
    · rfl
    · split <;> rfl
  all_goals rfl

theorem program_withLimit (line : Nat) (name : String) (arguments : List String) :
    (p.withLimit limit).program line name arguments =
      (p.program line name arguments).withLimit limit := by
  unfold program
  rw [program?_withLimit]
  cases p.program? name arguments with
  | none => exact congrArg (withStatus 127) (write_withLimit p limit _ _)
  | some q => rfl

theorem command_withLimit (line : Nat) (fields : List String) :
    (p.withLimit limit).command line fields = (p.command line fields).withLimit limit := by
  unfold command
  split
  · rfl
  · rfl
  · split <;> rfl
  · rfl
  · exact congrArg finish (program_withLimit p limit _ _ _)
  · exact program_withLimit p limit _ _ _

variable {p limit}

theorem isOver_withLimit (h : p.milliseconds < p.limit) (hlimit : p.limit ≤ limit) :
    (p.withLimit limit).isOver = p.isOver := by
  have hp : ¬ p.limit ≤ p.milliseconds := by omega
  have hq : ¬ limit ≤ p.milliseconds := by omega
  simp only [isOver, withLimit, hp, hq]

theorem simple_withLimit (words : List Word) (rs : List Redirection) (line : Nat)
    (h : p.milliseconds < p.limit) (hlimit : p.limit ≤ limit) :
    (p.withLimit limit).run (.simple words rs line) =
      (p.run (.simple words rs line)).withLimit limit := by
  have hfields : words.flatMap (p.withLimit limit).fields = words.flatMap p.fields := rfl
  rw [run, run, isOver_withLimit h hlimit, hfields]
  split
  · rfl
  · split
    · rw [redirect_withLimit]
      rfl
    · rw [redirecting, redirect_withLimit, command_withLimit]
      rfl

theorem ite_withLimit {cond : Prop} [Decidable cond] {yes no : Command}
    (hyes : (p.run yes).milliseconds < p.limit →
      (p.withLimit limit).run yes = (p.run yes).withLimit limit)
    (hno : (p.run no).milliseconds < p.limit →
      (p.withLimit limit).run no = (p.run no).withLimit limit)
    (h : (if cond then p.run yes else p.run no).milliseconds < p.limit) :
    (if cond then (p.withLimit limit).run yes else (p.withLimit limit).run no) =
      (if cond then p.run yes else p.run no).withLimit limit := by
  split at h
  · next hcond => rw [if_pos hcond, if_pos hcond, hyes h]
  · next hcond => rw [if_neg hcond, if_neg hcond, hno h]

section Onward

/-- Goes on with `k`, unless it stops for what has come before. -/
def onward (stop : Bool → Nat → Prop) [∀ isOver status, Decidable (stop isOver status)]
    (k : Process → Process) (q : Process) : Process :=
  if stop q.isOver q.status then q else k q

variable {first : Command} (stop : Bool → Nat → Prop)
  [∀ isOver status, Decidable (stop isOver status)] (k : Process → Process)

/-- What goes on after a command knows of the limit no more than its parts. -/
theorem onward_withLimit (hlimit : p.limit ≤ limit)
    (hfirst : (p.run first).milliseconds < p.limit →
      (p.withLimit limit).run first = (p.run first).withLimit limit)
    (hlater : Later (p.run first) (k (p.run first)))
    (hk : (p.run first).limit ≤ limit → (k (p.run first)).milliseconds < (p.run first).limit →
      k ((p.run first).withLimit limit) = (k (p.run first)).withLimit limit)
    (h : (onward stop k (p.run first)).milliseconds < p.limit) :
    onward stop k ((p.withLimit limit).run first) =
      (onward stop k (p.run first)).withLimit limit := by
  have htime : (p.run first).milliseconds < p.limit :=
    Nat.lt_of_le_of_lt (Later.ite (p.run first) (.refl _) hlater).milliseconds h
  have hsame := (later_run p first).limit
  rw [hfirst htime]
  unfold onward at h ⊢
  rw [isOver_withLimit (by rwa [hsame]) (by rwa [hsame])]
  show (if stop (p.run first).isOver (p.run first).status then _ else _) = _
  split
  · rfl
  · next hstop =>
    rw [if_neg hstop] at h
    exact hk (by rwa [hsame]) (by rwa [hsame])

end Onward

/-- A script that ends in time ends in the same way if it may take longer. -/
theorem run_withLimit {c : Command} (hlimit : p.limit ≤ limit)
    (h : (p.run c).milliseconds < p.limit) :
    (p.withLimit limit).run c = (p.run c).withLimit limit := by
  induction c generalizing p with
  | nothing => rfl
  | simple words rs line =>
    exact simple_withLimit words rs line
      (Nat.lt_of_le_of_lt (later_run p _).milliseconds h) hlimit
  | sequence first second ih₁ ih₂ =>
    exact onward_withLimit (fun isOver _ => isOver = true) (fun q => q.run second) hlimit
      (ih₁ hlimit) (later_run _ second) ih₂ h
  | both first second ih₁ ih₂ =>
    exact onward_withLimit (fun isOver status => isOver = true ∨ status ≠ 0)
      (fun q => q.run second) hlimit (ih₁ hlimit) (later_run _ second) ih₂ h
  | either first second ih₁ ih₂ =>
    exact onward_withLimit (fun isOver status => isOver = true ∨ status = 0)
      (fun q => q.run second) hlimit (ih₁ hlimit) (later_run _ second) ih₂ h
  | negation body ih =>
    exact onward_withLimit (fun isOver _ => isOver = true)
      (fun q => q.withStatus (if q.status = 0 then 1 else 0)) hlimit (ih hlimit)
      (later_withStatus _ _) (fun _ _ => rfl) h
  | branch condition yes no ih₁ ih₂ ih₃ =>
    refine onward_withLimit (fun isOver _ => isOver = true)
      (fun q => if q.status = 0 then q.run yes else q.run no) hlimit (ih₁ hlimit) ?_
      (fun hlimit htime => ite_withLimit (ih₂ hlimit) (ih₃ hlimit) htime) h
    split
    · exact later_run _ yes
    · exact later_run _ no
  | choice subject patterns body rest ih₁ ih₂ => exact ite_withLimit (ih₁ hlimit) (ih₂ hlimit) h
  | redirected body rs ih =>
    have hsame := (later_redirect p rs).limit
    have hbody := ih (p := p.redirect rs) (by rwa [hsame]) (by rwa [hsame])
    rw [run, redirect_withLimit, hbody]
    rfl

end Script.Process

/-! ### Interpreters -/

namespace Script.Process

variable {p : Process} {limit : Nat}

theorem outcome_withLimit (hlimit : p.limit ≤ limit) (h : p.outcome ≠ .timedOut) :
    (p.withLimit limit).outcome = p.outcome := by
  have hp : ¬ p.limit ≤ p.milliseconds := fun hover => h (if_pos hover)
  have hq : ¬ limit ≤ p.milliseconds := by omega
  rw [outcome, outcome, if_neg hp]
  exact if_neg hq

theorem milliseconds_lt_of_outcome (h : p.outcome ≠ .timedOut) : p.milliseconds < p.limit :=
  Nat.lt_of_not_le fun hover => h (if_pos hover)

theorem script?_withLimit (hlimit : p.limit ≤ limit) {bytes : List UInt8}
    (h : p.script? bytes ≠ some .timedOut) :
    (p.withLimit limit).script? bytes = p.script? bytes := by
  unfold script? at h ⊢
  refine Option.map_congr fun text htext => ?_
  rw [htext] at h
  cases hc : Command.ofText? 2 text with
  | none => rfl
  | some c =>
    have hends : (p.run c).outcome ≠ .timedOut := by simpa [hc] using h
    have hsame := (later_run p c).limit
    have hrun := run_withLimit hlimit (hsame ▸ milliseconds_lt_of_outcome hends)
    show ((p.withLimit limit).run c).outcome = (p.run c).outcome
    rw [hrun, outcome_withLimit (by rwa [hsame]) hends]

theorem named?_withLimit (hlimit : p.limit ≤ limit) (h : p.named? ≠ some .timedOut) :
    (p.withLimit limit).named? = p.named? := by
  unfold named? at h ⊢
  show (if p.name ∈ programs then _ else _) = _
  split
  · next hname =>
    rw [if_pos hname] at h
    show ((p.withLimit limit).program? p.name p.arguments).map outcome = _
    rw [program?_withLimit]
    cases hq : p.program? p.name p.arguments with
    | none => rfl
    | some q =>
      have hsame := (later_program? hq).limit
      rw [hq] at h
      have hends : q.outcome ≠ .timedOut := fun hover => h (congrArg some hover)
      exact congrArg some (outcome_withLimit (by rwa [hsame]) hends)
  · rfl

end Script.Process

/-- An interpreter that is not stopped does the same if it may take longer. -/
theorem Invocation.start_of_ne_timedOut (i : Invocation) (script? : Option (List UInt8))
    (file? : String → Option (List UInt8)) {milliseconds : Nat} (hle : i.milliseconds ≤ milliseconds)
    (h : i.start script? file? ≠ .timedOut) :
    ({ i with milliseconds } : Invocation).start script? file? = i.start script? file? := by
  have hprocess : ({ i with milliseconds } : Invocation).process file? =
      (i.process file?).withLimit milliseconds := rfl
  unfold start at h ⊢
  rw [hprocess]
  dsimp only at h ⊢
  split
  · next hpath =>
    rw [if_pos hpath] at h
    cases script? with
    | none => rfl
    | some bytes =>
      rw [Option.bind_some] at h ⊢
      rw [Script.Process.script?_withLimit hle]
      · rfl
      · intro hover
        exact h (by rw [hover]; rfl)
  · next hpath =>
    rw [if_neg hpath] at h
    rw [Script.Process.named?_withLimit hle]
    intro hover
    exact h (by rw [hover]; rfl)

end Blockwright
