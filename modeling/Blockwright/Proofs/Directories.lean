import Blockwright.CommandLine.Directory

/-!
# What a run leaves in a directory

A run of the command line in a directory writes no files but its output and its bundle: all others are
as they were, no directory is lost, and what has been printed stays (`CommandLine.kept_runIn`). That
holds whatever the interpreter does. It follows from what each request to the host does, put together
along the stages of the run.
-/

namespace Blockwright

namespace Directory

/-- All directories of `d` are there in `e`, from where paths start as before. -/
structure Grows (d e : Directory) : Prop where
  home : e.home = d.home
  executables : e.executables = d.executables
  directories : ∀ place, d.isDirectory place = true → e.isDirectory place = true

namespace Grows

variable {d e f : Directory}

theorem refl (d : Directory) : Grows d d := ⟨rfl, rfl, fun _ => id⟩

theorem trans (h : Grows d e) (h' : Grows e f) : Grows d f :=
  ⟨h'.home.trans h.home, h'.executables.trans h.executables,
    fun place hd => h'.directories place (h.directories place hd)⟩

theorem follow? (h : Grows d e) {here place : List String} {pieces : List String}
    (hd : d.follow? here pieces = some place) : e.follow? here pieces = some place := by
  fun_induction Directory.follow? d here pieces with
  | case1 here => exact hd
  | case2 here piece rest hno => cases hd
  | case3 here piece rest hyes hdot ih =>
    have hthere := h.directories here (by simpa using hyes)
    simp [Directory.follow?, hthere, hdot, ih hd]
  | case4 here rest hyes hdot ih =>
    have hthere := h.directories here (by simpa using hyes)
    simp [Directory.follow?, hthere, ih hd]
  | case5 here piece rest hyes hdot hup hname ih =>
    have hthere := h.directories here (by simpa using hyes)
    simp [Directory.follow?, hthere, hdot, hup, hname, ih hd]
  | case6 => cases hd

/-- A path that leads to a place still does. -/
theorem resolve? (h : Grows d e) {path : String} {place : List String}
    (hd : d.resolve? path = some place) : e.resolve? path = some place := by
  have hstart : e.startOf path = d.startOf path := by rw [startOf, startOf, h.home]
  unfold Directory.resolve? at hd ⊢
  split at hd
  · cases hd
  · next hpath =>
    rw [if_neg hpath, hstart]
    exact h.follow? hd

end Grows

theorem grows_withDirectories (d : Directory) (places : List (List String)) :
    Grows d (d.withDirectories places) := by
  refine ⟨rfl, rfl, fun place hd => ?_⟩
  simp only [isDirectory, withDirectories, Bool.or_eq_true, List.contains_append] at hd ⊢
  rcases hd with hd | hd
  · exact .inl hd
  · exact .inr (.inl hd)

theorem grows_setFile (d : Directory) (place : List String) (bytes : List UInt8) :
    Grows d (d.setFile place bytes) := by
  have h := grows_withDirectories d (above place)
  exact ⟨h.home, h.executables, h.directories⟩

theorem file?_setFile_of_ne (d : Directory) {place place' : List String} (bytes : List UInt8)
    (hne : place' ≠ place) : (d.setFile place bytes).file? place' = d.file? place' := by
  have hnew : ([(place, bytes)].find? fun f => f.1 = place') = none := by simpa using hne.symm
  have hold : ∀ f : List String × List UInt8, (f.1 ≠ place ∧ f.1 = place') ↔ f.1 = place' :=
    fun f => and_iff_right_of_imp fun hf => hf ▸ hne
  rw [file?, setFile, List.find?_append, List.find?_filter, hnew, Option.or_none]
  simp only [decide_eq_true_eq, hold]
  rfl

theorem make?_eq_some {d e : Directory} {here parts : List String} (h : d.make? here parts = some e) :
    Grows d e ∧ e.files = d.files := by
  fun_induction make? d here parts with
  | case1 => cases h; exact ⟨.refl _, rfl⟩
  | case2 d here rest ih => exact ih h
  | case3 d here rest ih => exact ih h
  | case4 => cases h
  | case5 d here name rest _ _ next hfree ih =>
    obtain ⟨hgrows, hfiles⟩ := ih h
    exact ⟨(grows_withDirectories d [next]).trans hgrows, hfiles⟩

end Directory

/-! ### Requests to the host -/

namespace Surroundings

open Directory

/-- What stays from `s` to `t` if the files at no other paths are written. -/
structure Kept (paths : List String) (s t : Surroundings) : Prop where
  grows : Grows s.directory t.directory
  files : ∀ place, (∀ path ∈ paths, t.directory.resolve? path ≠ some place) →
    t.directory.file? place = s.directory.file? place
  stdout : ∃ text, t.stdout = s.stdout ++ text
  stderr : ∃ text, t.stderr = s.stderr ++ text

namespace Kept

variable {paths : List String} {s t u : Surroundings}

theorem withDirectory {e : Directory} (hgrows : Grows s.directory e)
    (hfiles : ∀ place, (∀ path ∈ paths, e.resolve? path ≠ some place) →
      e.file? place = s.directory.file? place) : Kept paths s { s with directory := e } :=
  ⟨hgrows, hfiles, ⟨"", by simp⟩, ⟨"", by simp⟩⟩

theorem refl (s : Surroundings) : Kept paths s s := withDirectory (.refl _) fun _ _ => rfl

theorem trans (h : Kept paths s t) (h' : Kept paths t u) : Kept paths s u := by
  obtain ⟨out, hout⟩ := h.stdout
  obtain ⟨out', hout'⟩ := h'.stdout
  obtain ⟨err, herr⟩ := h.stderr
  obtain ⟨err', herr'⟩ := h'.stderr
  refine ⟨h.grows.trans h'.grows, fun place hplace => ?_, ⟨out ++ out', ?_⟩, ⟨err ++ err', ?_⟩⟩
  · rw [h'.files place hplace]
    exact h.files place fun path hpath hresolve => hplace path hpath (h'.grows.resolve? hresolve)
  · rw [hout', hout, String.append_assoc]
  · rw [herr', herr, String.append_assoc]

end Kept

/-- The computation keeps what is not at the paths, whatever comes of it. -/
def Keeps (paths : List String) {α : Type} (x : StateM Surroundings α) : Prop :=
  ∀ s, Kept paths s (x.run s).2

section Requests

variable {paths : List String} (start : Directory → Invocation → Outcome)

theorem keeps_locate (path : String) : Keeps paths ((host start).locate path) := fun s => .refl s

theorem keeps_read (path : String) : Keeps paths ((host start).read path) := fun s => .refl s

theorem keeps_start (i : Invocation) : Keeps paths ((host start).start i) := fun s => .refl s

theorem keeps_print (text : String) : Keeps paths ((host start).print text) := fun s =>
  { Kept.refl s with stdout := ⟨text, rfl⟩ }

theorem keeps_report (text : String) : Keeps paths ((host start).report text) := fun s =>
  { Kept.refl s with stderr := ⟨text, rfl⟩ }

theorem keeps_makeDirectories (path : String) :
    Keeps paths ((host start).makeDirectories path) := by
  intro s
  cases hmake : s.directory.make? (s.directory.startOf path) (Path.parts path) with
  | none =>
    have hrun : ((host start).makeDirectories path).run s = (false, s) := by
      simp only [host, StateT.run_bind, StateT.run_get, pure_bind, hmake]
      rfl
    rw [hrun]
    exact .refl s
  | some e =>
    have hrun : ((host start).makeDirectories path).run s = (true, { s with directory := e }) := by
      simp only [host, StateT.run_bind, StateT.run_get, pure_bind, hmake]
      rfl
    obtain ⟨hgrows, hfiles⟩ := make?_eq_some hmake
    rw [hrun]
    exact .withDirectory hgrows fun place _ => by rw [file?, file?, hfiles]

theorem keeps_write {path : String} (hpath : path ∈ paths) (bytes : List UInt8) :
    Keeps paths ((host start).write path bytes) := by
  intro s
  have hwrite : ∀ place, s.directory.resolve? path = some place →
      Kept paths s { s with directory := s.directory.setFile place bytes } := by
    intro place hplace
    have hgrows := grows_setFile s.directory place bytes
    refine .withDirectory hgrows fun place' hother => file?_setFile_of_ne _ bytes fun heq => ?_
    exact hother path hpath (heq ▸ hgrows.resolve? hplace)
  cases hplace : s.directory.resolve? path with
  | none =>
    have hrun : ((host start).write path bytes).run s = (false, s) := by
      simp only [host, StateT.run_bind, StateT.run_get, pure_bind, hplace]
      rfl
    rw [hrun]
    exact .refl s
  | some place =>
    have hrun : (((host start).write path bytes).run s).2 = s ∨ (((host start).write path bytes).run s).2
        = { s with directory := s.directory.setFile place bytes } := by
      simp only [host, StateT.run_bind, StateT.run_get, pure_bind, hplace]
      split
      · exact .inl rfl
      · split
        · exact .inr rfl
        · exact .inl rfl
    rcases hrun with hrun | hrun
    · rw [hrun]
      exact .refl s
    · rw [hrun]
      exact hwrite place hplace

end Requests

end Surroundings

/-! ### Stages of a run -/

namespace CommandLine

open Surroundings

variable {paths : List String} {α β : Type}

/-- The run keeps what is not at the paths, also if it fails. -/
def Keeps (paths : List String) (x : Run (StateM Surroundings) α) : Prop := Surroundings.Keeps paths x.run

namespace Keeps

theorem settled (result : Attempt α) : Keeps paths (CommandLine.settled result) := fun s => .refl s

theorem pure (a : α) : Keeps paths (Pure.pure a : Run (StateM Surroundings) α) := fun s => .refl s

theorem throw (failure : Failure) :
    Keeps paths (MonadExcept.throw failure : Run (StateM Surroundings) α) := fun s => .refl s

theorem lift {x : StateM Surroundings α} (h : Surroundings.Keeps paths x) :
    Keeps paths (liftM x : Run (StateM Surroundings) α) := h

theorem bind {x : Run (StateM Surroundings) α} {f : α → Run (StateM Surroundings) β}
    (hx : Keeps paths x) (hf : ∀ a, Keeps paths (f a)) : Keeps paths (x >>= f) := by
  intro s
  have hfirst := hx s
  rcases hrun : x.run.run s with ⟨result, t⟩
  rw [hrun] at hfirst
  rw [ExceptT.run_bind, StateT.run_bind, hrun]
  cases result with
  | ok a => exact hfirst.trans (hf a t)
  | error e => exact hfirst

end Keeps

/-- The paths that a run may write. -/
def targets (c : CommandLine) : List String := c.output.toList ++ c.bundle.toList

variable (start : Directory → Invocation → Outcome) (c : CommandLine)

theorem keeps_stage (step : Nat) (label : String) :
    Keeps paths (stage (host start) c step label) := .lift (keeps_report start _)

theorem keeps_readFile (context path : String) : Keeps paths (readFile (host start) context path) :=
  .bind (.lift (keeps_read start path)) fun _ => .settled _

theorem keeps_readText (context path : String) : Keeps paths (readText (host start) context path) :=
  .bind (keeps_readFile start context path) fun _ => .settled _

theorem keeps_writeFile {path : String} (hpath : path ∈ paths) (bytes : List UInt8) :
    Keeps paths (writeFile (host start) path bytes) := by
  unfold writeFile
  extract_lets write
  have hwrite : ∀ r, Keeps paths (write r) := fun _ => by
    refine .bind (.lift (keeps_write start hpath bytes)) fun done => ?_
    split
    · exact .throw _
    · exact .pure ()
  split
  · split
    · refine .bind (.lift (keeps_makeDirectories start _)) fun done => ?_
      split
      · exact .bind (.throw _) hwrite
      · exact hwrite ()
    · exact hwrite ()
  · exact hwrite ()

theorem keeps_writeOutput (text : String) : Keeps c.targets (writeOutput (host start) c text) := by
  unfold writeOutput
  split
  · next path hpath =>
    split
    · exact .lift (keeps_print start text)
    · exact keeps_writeFile start (by simp [targets, hpath]) _
  · exact .lift (keeps_print start text)

theorem keeps_isArchive (path : String) : Keeps paths (isArchive (host start) path) := by
  unfold isArchive
  split
  · exact .pure true
  · exact .bind (keeps_readFile start _ path) fun _ => .pure _

theorem keeps_loadInput (path : String) : Keeps paths (loadInput (host start) c path) := by
  unfold loadInput
  extract_lets toolbox
  refine .bind (keeps_isArchive start path) fun isArchive => ?_
  split
  · exact .bind (keeps_readFile start _ path) fun _ => .bind (.settled _) fun _ =>
      .bind (.settled _) fun _ => .pure _
  · exact .bind (keeps_readText start _ path) fun _ => .bind (.settled _) fun _ => .pure _

theorem keeps_loadCustomBlocks (toolbox : Toolbox) (path : Option String) :
    Keeps paths (loadCustomBlocks (host start) toolbox path) := by
  cases path with
  | none => exact .pure toolbox
  | some path =>
    exact .bind (keeps_readText start _ path) fun _ => .bind (.settled _) fun _ => .pure _

theorem keeps_loadModules (toolbox : Toolbox) (path : Option String) :
    Keeps paths (loadModules (host start) toolbox path) := by
  cases path with
  | none => exact .pure toolbox
  | some path =>
    exact .bind (keeps_readText start _ path) fun _ => .bind (.settled _) fun _ => .pure _

theorem keeps_execute (i : Invocation) : Keeps paths (execute (host start) i) :=
  .bind (.lift (keeps_start start i)) fun _ => .settled _

theorem keeps_scanModules (toolbox : Toolbox) (workspace : Workspace) (options : Options) :
    Keeps paths (scanModules (host start) c toolbox workspace options) :=
  .bind (.bind (keeps_execute start _) fun _ => .settled _) fun _ => .pure _

theorem keeps_runProgram (source : String) : Keeps paths (runProgram (host start) c source) := by
  refine .bind (keeps_execute start _) fun e => .bind (.lift (keeps_print start _)) fun _ =>
    .bind (.lift (keeps_report start _)) fun _ => ?_
  split
  · exact .throw _
  · exact .pure ()

theorem keeps_perform : Keeps c.targets (perform (host start) c) := by
  refine .bind (keeps_stage start c _ _) fun _ => .bind (.lift (keeps_locate start _)) fun _ =>
    .bind (.settled _) fun path => .bind (keeps_stage start c _ _) fun _ =>
    .bind (keeps_loadInput start c path) fun loaded => ?_
  obtain ⟨workspace, toolbox⟩ := loaded
  refine .bind (keeps_loadCustomBlocks start _ _) fun _ => .bind (keeps_loadModules start _ _) fun _ => ?_
  extract_lets options step toolbox compile
  have hcompile : ∀ r step toolbox, Keeps c.targets (compile r step toolbox) := by
    intro _ step toolbox
    show Keeps c.targets (if c.categories = true then _ else _)
    split
    · exact .bind (keeps_stage start c _ _) fun _ => .bind (keeps_writeOutput start c _) fun _ => .pure ()
    · refine .bind (keeps_stage start c _ _) fun _ => .bind (.settled _) fun code =>
        .bind (keeps_stage start c _ _) fun _ => ?_
      extract_lets written run bundled bundle
      have hrun : ∀ r step, Keeps c.targets (run r step) := by
        intro _ step
        show Keeps c.targets (if c.run = true then _ else _)
        split
        · exact .bind (keeps_stage start c _ _) fun _ => keeps_runProgram start c _
        · exact .pure ()
      have hbundle : ∀ r, Keeps c.targets (bundle r) := by
        intro _
        dsimp only [bundle]
        split
        · next target htarget =>
          exact .bind (keeps_stage start c _ _) fun _ => .bind (.settled _) fun _ =>
            .bind (keeps_writeFile start (by simp [targets, htarget]) _) fun _ => hrun () _
        · exact hrun () _
      split
      · exact .bind (keeps_writeOutput start c _) fun _ => hbundle ()
      · exact hbundle ()
  split
  · exact .bind (keeps_stage start c _ _) fun _ => .bind (keeps_scanModules start c _ _ _) fun _ =>
      hcompile () _ _
  · exact hcompile () _ _

/-- A run writes no files but its output and its bundle, and what it has printed stays. -/
theorem kept_runIn (d : Directory) : Kept c.targets { directory := d } (c.runIn start d).2 :=
  keeps_perform start c { directory := d }

end CommandLine

end Blockwright
