import Blockwright.Catalogue.Basic
import Blockwright.Preview
import Blockwright.Proofs.Walk
import Mathlib.Data.List.Induction
import Mathlib.Data.List.Forall2

/-!
# What a preview shows

A preview is refreshed time after time, each time with a registry, a workspace and options that need
not have anything to do with the ones before. `Preview.kept?_refresh` says what one refresh keeps.
After a whole history a preview keeps, for a stack, its code from the latest refresh in which it
could be compiled, as long as it was at the top level ever since (`Preview.kept?_after`).

Main statements: `Preview.after_shows_latest`, on all that is shown after a history, and
`Preview.refresh_agrees_with_program`, by which a preview and the program of a workspace are at one:
there is a program if nothing is diagnosed, and the first diagnostic is why there is none.
-/

namespace Blockwright

namespace Compiler

/-- The stack is at the top level, and this is its code. -/
def Compiles (c : Compiler) (root : BlockId) (code : String) : Prop :=
  root ∈ c.workspace.topBlocks ∧ c.chain root = .ok code

end Compiler

namespace Preview

variable {p : Preview} {c : Compiler} {root : BlockId} {text : String} {earlier : List Compiler}

/-! ### One refresh -/

theorem contribution_of_ok (h : c.chain root = .ok text) :
    p.contribution c root = some (root, text) := by
  rw [contribution, h]

theorem contribution_of_error {fault : Fault} (h : c.chain root = .error fault) :
    p.contribution c root = (p.kept? root).map (root, ·) := by
  rw [contribution, h]

theorem fst_of_contribution {entry : BlockId × String} (h : p.contribution c root = some entry) :
    entry.1 = root := by
  cases hc : c.chain root with
  | ok code => rw [contribution_of_ok hc] at h; cases h; rfl
  | error fault =>
    rw [contribution_of_error hc] at h
    obtain ⟨code, -, rfl⟩ := Option.map_eq_some_iff.mp h
    rfl

theorem map_snd_contribution (p : Preview) (c : Compiler) (root : BlockId) :
    (p.contribution c root).map Prod.snd = (c.chain root).toOption.or (p.kept? root) := by
  cases hc : c.chain root with
  | ok code => rw [contribution_of_ok hc]; rfl
  | error fault =>
    rw [contribution_of_error hc, Option.map_map]
    exact Option.map_id'

theorem find?_filterMap_contribution (p : Preview) (c : Compiler) (root : BlockId)
    (roots : List BlockId) :
    (roots.filterMap (p.contribution c)).find? (fun entry => entry.1 = root) =
      if root ∈ roots then p.contribution c root else none := by
  induction roots with
  | nil => simp
  | cons r roots ih =>
    cases hr : p.contribution c r with
    | none =>
      rw [List.filterMap_cons_none hr, ih]
      by_cases heq : root = r
      · subst heq; simp [hr]
      · simp [heq]
    | some entry =>
      have hkey := fst_of_contribution hr
      rw [List.filterMap_cons_some hr, List.find?_cons]
      by_cases heq : root = r
      · subst heq; simp [hkey, hr]
      · simp [hkey, ih, heq, Ne.symm heq]

/-- A refresh keeps new code, or else what was kept, and lets go of all that left the top level. -/
theorem kept?_refresh (p : Preview) (c : Compiler) (root : BlockId) :
    (p.refresh c).kept? root =
      if root ∈ c.workspace.topBlocks then (c.chain root).toOption.or (p.kept? root) else none := by
  rw [kept?, refresh]
  dsimp only
  rw [find?_filterMap_contribution]
  split
  · exact map_snd_contribution p c root
  · rfl

theorem code_refresh (p : Preview) (c : Compiler) :
    (p.refresh c).code = Text.finish (Text.joinWith "\n"
      (c.workspace.topBlocks.filterMap fun root => (c.chain root).toOption.or (p.kept? root))) := by
  rw [refresh]
  dsimp only
  rw [List.map_filterMap, funext (map_snd_contribution p c)]

theorem diagnose_of_ok (h : c.chain root = .ok text) : diagnose c root = none := by
  rw [diagnose, h]

theorem diagnose_of_error {fault : Fault} (h : c.chain root = .error fault) :
    diagnose c root = some ⟨root, fault.message⟩ := by
  rw [diagnose, h]

theorem map_root_diagnostics (p : Preview) (c : Compiler) :
    (p.refresh c).diagnostics.map Diagnostic.root =
      c.workspace.topBlocks.filter fun root => !(c.chain root).isOk := by
  rw [refresh, ← List.filterMap_eq_filter]
  dsimp only
  rw [List.map_filterMap]
  congr 1
  funext root
  cases hc : c.chain root with
  | ok code => rw [diagnose_of_ok hc, Option.guard, hc]; rfl
  | error fault => rw [diagnose_of_error hc, Option.guard, hc]; rfl

theorem fault_of_mem_diagnostics {d : Diagnostic} (h : d ∈ (p.refresh c).diagnostics) :
    ∃ fault, c.chain d.root = .error fault ∧ d.message = fault.message := by
  obtain ⟨root, -, hroot⟩ := List.mem_filterMap.mp h
  cases hc : c.chain root with
  | ok code => rw [diagnose_of_ok hc] at hroot; cases hroot
  | error fault => rw [diagnose_of_error hc] at hroot; cases hroot; exact ⟨fault, hc, rfl⟩

/-! ### Histories of refreshes -/

/-- A preview that started with nothing, after refreshes one after the other. -/
def after (history : List Compiler) : Preview := history.foldl refresh {}

theorem after_concat (earlier : List Compiler) (c : Compiler) :
    after (earlier ++ [c]) = (after earlier).refresh c :=
  List.foldl_concat ..

/-- The code of a stack in the latest refresh in which it could be compiled, if it has been at the
top level ever since. -/
def lastGood? (history : List Compiler) (root : BlockId) : Option String :=
  (history.reverse.takeWhile fun c => root ∈ c.workspace.topBlocks).findSome? fun c =>
    (c.chain root).toOption

theorem lastGood?_concat (earlier : List Compiler) (c : Compiler) (root : BlockId) :
    lastGood? (earlier ++ [c]) root =
      if root ∈ c.workspace.topBlocks then (c.chain root).toOption.or (lastGood? earlier root)
      else none := by
  rw [lastGood?, List.reverse_concat, List.takeWhile_cons]
  by_cases htop : root ∈ c.workspace.topBlocks
  · rw [if_pos (decide_eq_true htop), if_pos htop, List.findSome?_cons]
    cases (c.chain root).toOption <;> rfl
  · rw [if_neg (by simpa using htop), if_neg htop, List.findSome?_nil]

/-- A preview keeps the last good code of every stack and no other. -/
theorem kept?_after (history : List Compiler) (root : BlockId) :
    (after history).kept? root = lastGood? history root := by
  induction history using List.reverseRecOn with
  | nil => rfl
  | append_singleton earlier c ih => rw [after_concat, kept?_refresh, ih, lastGood?_concat]

/-- The stack had this code in some refresh. In the ones after it, it had none, but it was at the top
level in all of them. -/
def LastGood (history : List Compiler) (root : BlockId) (text : String) : Prop :=
  ∃ before last since, history = before ++ last :: since ∧ last.Compiles root text ∧
    (∀ c ∈ since, ∀ code, ¬ c.Compiles root code) ∧ ∀ c ∈ since, root ∈ c.workspace.topBlocks

theorem lastGood_concat_iff : LastGood (earlier ++ [c]) root text ↔
    root ∈ c.workspace.topBlocks ∧ (c.chain root = .ok text ∨
      (∃ fault, c.chain root = .error fault) ∧ LastGood earlier root text) := by
  constructor
  · rintro ⟨before, last, since, hsplit, hlast, hlatest, htop⟩
    rcases List.eq_nil_or_concat since with rfl | ⟨between, d, rfl⟩
    · -- the stack was compiled in the last refresh
      obtain ⟨rfl, hc⟩ := List.append_inj' hsplit rfl
      cases hc
      exact ⟨hlast.1, .inl hlast.2⟩
    · -- it was compiled before, so in the last refresh it was at fault, or that would be the latest
      rw [List.concat_eq_append] at hsplit hlatest htop
      rw [← List.cons_append, ← List.append_assoc] at hsplit
      obtain ⟨rfl, hc⟩ := List.append_inj' hsplit rfl
      cases hc
      have hroot : root ∈ c.workspace.topBlocks := htop c (by simp)
      refine ⟨hroot, .inr ⟨?_, before, last, between, rfl, hlast, ?_, ?_⟩⟩
      · cases hc : c.chain root with
        | ok code => exact absurd ⟨hroot, hc⟩ (hlatest c (by simp) code)
        | error fault => exact ⟨fault, rfl⟩
      · exact fun d hd => hlatest d (List.mem_append_left _ hd)
      · exact fun d hd => htop d (List.mem_append_left _ hd)
  · rintro ⟨hroot, hok | ⟨⟨fault, herror⟩, before, last, since, rfl, hlast, hlatest, htop⟩⟩
    · exact ⟨earlier, c, [], rfl, ⟨hroot, hok⟩, by simp, by simp⟩
    · refine ⟨before, last, since ++ [c], by simp, hlast, ?_, ?_⟩
      · refine List.forall_mem_append.mpr ⟨hlatest, List.forall_mem_singleton.mpr ?_⟩
        rintro code ⟨-, hok⟩
        cases herror.symm.trans hok
      · exact List.forall_mem_append.mpr ⟨htop, List.forall_mem_singleton.mpr hroot⟩

theorem lastGood?_eq_some_iff (history : List Compiler) (root : BlockId) (text : String) :
    lastGood? history root = some text ↔ LastGood history root text := by
  induction history using List.reverseRecOn with
  | nil => simp [lastGood?, LastGood]
  | append_singleton earlier c ih =>
    rw [lastGood?_concat, lastGood_concat_iff, ← ih]
    split
    · next htop => cases hc : c.chain root <;> simp [htop, Except.toOption]
    · next htop => simp [htop]

/-- What a stack adds to the program that is shown: its code, or else its last good code. -/
def shown? (earlier : List Compiler) (c : Compiler) (root : BlockId) : Option String :=
  (c.chain root).toOption.or (lastGood? earlier root)

theorem shown?_eq_some_iff : shown? earlier c root = some text ↔ c.chain root = .ok text ∨
    (∃ fault, c.chain root = .error fault) ∧ LastGood earlier root text := by
  rw [shown?, ← lastGood?_eq_some_iff]
  cases hc : c.chain root <;> simp [Except.toOption]

/-- After any history of refreshes, whatever they looked at, the diagnostics are those of the stacks
at fault in the last one, and the code is that of its stacks one after the other. A stack that could
not be compiled has its code from the latest refresh in which it could be, provided that it was at the
top level in every refresh since; without such code it is left out. -/
theorem after_shows_latest (earlier : List Compiler) (c : Compiler) :
    let p := after (earlier ++ [c])
    (p.diagnostics.map Diagnostic.root =
      c.workspace.topBlocks.filter fun root => !(c.chain root).isOk) ∧
    (∀ d ∈ p.diagnostics, ∃ fault, c.chain d.root = .error fault ∧ d.message = fault.message) ∧
    p.code = Text.finish (Text.joinWith "\n" (c.workspace.topBlocks.filterMap (shown? earlier c))) ∧
    ∀ root text, shown? earlier c root = some text ↔ c.chain root = .ok text ∨
      (∃ fault, c.chain root = .error fault) ∧ LastGood earlier root text := by
  intro p
  have hp : p = (after earlier).refresh c := after_concat earlier c
  refine ⟨?_, fun d hd => ?_, ?_, fun root text => shown?_eq_some_iff⟩
  · rw [hp, map_root_diagnostics]
  · rw [hp] at hd
    exact fault_of_mem_diagnostics hd
  · rw [hp, code_refresh]
    simp only [kept?_after]
    rfl

/-- A stack at fault keeps its code through any number of refreshes, but not through one in which it
is away. -/
theorem after_shows_latest_away :
    let ws : Workspace := { blocks := #[some { id := ⟨0⟩, typeId := "python_pass" }], top := [⟨0⟩] }
    let good : Compiler := ⟨Registry.empty.registerAll Catalogue.passages, ws, {}⟩
    let bad : Compiler := ⟨Registry.empty, ws, {}⟩
    let away : Compiler := ⟨Registry.empty, Workspace.empty, {}⟩
    (after [good, bad, bad]).code = "pass\n" ∧ (after [good, away, bad]).code = "" := by
  intro ws good bad away
  have hkept : (after [good, bad, bad]).code = _ := (after_shows_latest [good, bad] bad).2.2.1
  have hlost : (after [good, away, bad]).code = _ := (after_shows_latest [good, away] bad).2.2.1
  rw [hkept, hlost]
  decide +kernel

/-! ### Previews and programs -/

theorem refresh_of_forall₂ {codes : List String} (p : Preview)
    (h : List.Forall₂ (fun root code => c.chain root = .ok code) c.workspace.topBlocks codes) :
    (p.refresh c).diagnostics = [] ∧
      (p.refresh c).code = Text.finish (Text.joinWith "\n" codes) := by
  have hstacks : ∀ roots codes, List.Forall₂ (fun root code => c.chain root = .ok code) roots codes →
      roots.filterMap (diagnose c) = [] ∧
      roots.filterMap (fun root => (c.chain root).toOption.or (p.kept? root)) = codes := by
    intro roots codes h
    induction h with
    | nil => exact ⟨rfl, rfl⟩
    | cons hroot _ ih =>
      rw [List.filterMap_cons_none (diagnose_of_ok hroot),
        List.filterMap_cons_some (by rw [hroot]; rfl), ih.2]
      exact ⟨ih.1, rfl⟩
  obtain ⟨hnone, hcodes⟩ := hstacks _ _ h
  exact ⟨hnone, by rw [code_refresh, hcodes]⟩

theorem head?_diagnostics {before after : List BlockId} {fault : Fault} (p : Preview)
    (hroots : c.workspace.topBlocks = before ++ root :: after)
    (hbefore : ∀ r ∈ before, ∃ code, c.chain r = .ok code) (hroot : c.chain root = .error fault) :
    (p.refresh c).diagnostics.head? = some ⟨root, fault.message⟩ := by
  have hnone : before.filterMap (diagnose c) = [] := by
    refine List.filterMap_eq_nil_iff.mpr fun r hr => ?_
    obtain ⟨code, hcode⟩ := hbefore r hr
    exact diagnose_of_ok hcode
  rw [refresh]
  dsimp only
  rw [hroots, List.filterMap_append, hnone, List.filterMap_cons_some (diagnose_of_error hroot)]
  rfl

/-- Whatever a preview kept, it is refreshed to a program without diagnostics exactly if the workspace
has that program. If it has none, the first diagnostic is about the first stack at fault, and tells why
there is no program. -/
theorem refresh_agrees_with_program (p : Preview) (c : Compiler) :
    (∀ code, c.program = .ok code ↔ (p.refresh c).diagnostics = [] ∧ (p.refresh c).code = code) ∧
    ∀ fault, c.program = .error fault → ∃ root,
      (c.workspace.topBlocks.find? fun root => !(c.chain root).isOk) = some root ∧
      c.chain root = .error fault ∧
      (p.refresh c).diagnostics.head? = some ⟨root, fault.message⟩ := by
  rcases c.stackTexts_cases c.workspace.topBlocks with
    ⟨codes, htexts, hall⟩ | ⟨before, root, after, fault, htexts, hroots, hbefore, hroot⟩
  · have hprogram : c.program = .ok (Text.finish (Text.joinWith "\n" codes)) := by
      rw [Compiler.program, htexts]
      rfl
    obtain ⟨hnone, hcode⟩ := refresh_of_forall₂ p hall
    refine ⟨fun code => ?_, fun fault h => ?_⟩
    · rw [hprogram, hcode, Except.ok.injEq]
      exact ⟨fun h => ⟨hnone, h⟩, fun h => h.2⟩
    · cases hprogram.symm.trans h
  · have hprogram : c.program = .error fault := by
      rw [Compiler.program, htexts]
      rfl
    have hhead := head?_diagnostics p hroots hbefore hroot
    refine ⟨fun code => ⟨fun h => ?_, fun h => ?_⟩, fun fault' h => ⟨root, ?_, ?_⟩⟩
    · cases hprogram.symm.trans h
    · rw [h.1] at hhead
      cases hhead
    · refine List.find?_eq_some_iff_append.mpr ⟨by rw [hroot]; rfl, before, after, hroots, ?_⟩
      intro r hr
      obtain ⟨code, hcode⟩ := hbefore r hr
      rw [hcode]
      rfl
    · cases hprogram.symm.trans h
      exact ⟨hroot, hhead⟩

/-- Of three stacks the second and the third are at fault, and there is old code for the second. -/
theorem refresh_agrees_with_program_stale :
    let c : Compiler :=
      { registry := Registry.empty.registerAll Catalogue.passages
        workspace :=
          { blocks :=
              #[some { id := ⟨0⟩, typeId := "python_pass" }, some { id := ⟨1⟩, typeId := "gone" },
                some { id := ⟨2⟩, typeId := "lost" }]
            top := [⟨0⟩, ⟨1⟩, ⟨2⟩] }
        options := {} }
    let p : Preview := { kept := [(⟨1⟩, "old\n")] }
    c.program = .error (.unknownType "gone") ∧
      (p.refresh c).diagnostics.head? = some ⟨⟨1⟩, "unknown block type 'gone'"⟩ := by
  intro c p
  have htop : c.workspace.topBlocks = [⟨0⟩, ⟨1⟩, ⟨2⟩] :=
    List.mergeSort_of_pairwise (by decide +kernel)
  have htexts : c.stackTexts [⟨0⟩, ⟨1⟩, ⟨2⟩] = .error (.unknownType "gone") := by decide +kernel
  have hprogram : c.program = .error (.unknownType "gone") := by
    rw [Compiler.program, htop, htexts]
    rfl
  have hfirst : ([⟨0⟩, ⟨1⟩, ⟨2⟩] : List BlockId).find? (fun root => !(c.chain root).isOk) =
      some ⟨1⟩ := by decide +kernel
  obtain ⟨root, hfind, -, hhead⟩ := (refresh_agrees_with_program p c).2 _ hprogram
  rw [htop, hfirst] at hfind
  cases hfind
  exact ⟨hprogram, hhead⟩

end Preview

end Blockwright
