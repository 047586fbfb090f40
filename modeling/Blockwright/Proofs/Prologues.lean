import Blockwright.CustomBlock
import Blockwright.Proofs.Lines
import Mathlib.Data.List.Forall2

/-!
# The functions of custom blocks

The prologue of a program has one function for each custom block. `CustomBlock.Defines` says what the
text of such a function is: its head, and the lines of the body one level in, or the placeholder. The
texts of parameters are not looked at, and one that has a line end could begin a function of its own.
Main statement: `CustomBlock.filter_rows_prologue`, by which nothing but the heads begins a function
where parameters stand on one row, bodies break no line by a carriage return, and the indent indents.
-/

namespace Blockwright

/-! ### Names of functions -/

namespace Text

variable {s t callee : String} {params : List String}

/-- A letter or an underscore, and then letters, digits and underscores. -/
def IsIdentifier (s : String) : Prop :=
  ∃ c cs, s.toList = c :: cs ∧ (c.isAlpha = true ∨ c = '_') ∧
    ∀ d ∈ cs, d.isAlphanum = true ∨ d = '_'

theorem forall_mem_sanitize (s : String) :
    ∀ c ∈ (sanitize s).toList, c.isAlphanum = true ∨ c = '_' := by
  intro c hc
  rw [sanitize, String.toList_ofList] at hc
  obtain ⟨b, -, rfl⟩ := List.mem_map.mp hc
  split
  · next hb => simpa [isIdentifierChar] using hb
  · exact .inr rfl

theorem isIdentifier_safeName (s : String) : IsIdentifier (safeName s) := by
  have hall := forall_mem_sanitize s
  unfold safeName
  split
  · exact ⟨'_', [], rfl, .inr rfl, by simp⟩
  · next c cs hs =>
    rw [hs] at hall
    split
    · exact ⟨'_', c :: cs, String.toList_ofList, .inr rfl, hall⟩
    · next hdigit =>
      obtain ⟨hc, hcs⟩ := List.forall_mem_cons.mp hall
      refine ⟨c, cs, String.toList_ofList, ?_, hcs⟩
      rcases hc with hc | hc
      · rcases Bool.or_eq_true_iff.mp hc with hc | hc
        · exact .inl hc
        · exact absurd hc hdigit
      · exact .inr hc

theorem IsIdentifier.isAlphanum_or (h : IsIdentifier s) :
    ∀ c ∈ s.toList, c.isAlphanum = true ∨ c = '_' := by
  obtain ⟨c, cs, hs, hc, hcs⟩ := h
  rw [hs]
  refine List.forall_mem_cons.mpr ⟨hc.imp_left fun hc => ?_, hcs⟩
  exact Bool.or_eq_true_iff.mpr (.inl hc)

/-! ### Rows -/

/-- A line feed or a carriage return: either ends a row. -/
def isBreak (c : Char) : Bool := c == '\n' || c == '\r'

/-- The rows of a text, without what ends them. -/
def rows (s : String) : List String := (s.toList.splitOnP isBreak).map String.ofList

/-- Nothing in the text ends a row. -/
def OneRow (s : String) : Prop := ∀ c ∈ s.toList, isBreak c = false

-- by name, since all characters could be tried as well
instance (s : String) : Decidable (OneRow s) := List.decidableBAll (isBreak · = false) s.toList

theorem OneRow.append (hs : OneRow s) (ht : OneRow t) : OneRow (s ++ t) := by
  intro c hc
  rw [String.toList_append] at hc
  rcases List.mem_append.mp hc with hc | hc
  · exact hs c hc
  · exact ht c hc

theorem oneRow_iff : OneRow s ↔ '\n' ∉ s.toList ∧ '\r' ∉ s.toList := by
  constructor
  · exact fun h => ⟨fun hmem => Bool.noConfusion (h _ hmem), fun hmem => Bool.noConfusion (h _ hmem)⟩
  · rintro ⟨hn, hr⟩ c hc
    rw [isBreak, Bool.or_eq_false_iff, beq_eq_false_iff_ne, beq_eq_false_iff_ne]
    exact ⟨fun heq => hn (heq ▸ hc), fun heq => hr (heq ▸ hc)⟩

theorem IsIdentifier.oneRow (h : IsIdentifier s) : OneRow s := by
  refine oneRow_iff.mpr ⟨fun hmem => ?_, fun hmem => ?_⟩
  · exact absurd (h.isAlphanum_or _ hmem) (by decide)
  · exact absurd (h.isAlphanum_or _ hmem) (by decide)

theorem oneRow_joinWith {sep : String} (hsep : OneRow sep) {texts : List String}
    (h : ∀ text ∈ texts, OneRow text) : OneRow (joinWith sep texts) := by
  induction texts with
  | nil => exact fun c hc => absurd hc (by simp)
  | cons text texts ih =>
    obtain ⟨htext, htexts⟩ := List.forall_mem_cons.mp h
    cases texts with
    | nil => exact htext
    | cons next texts => exact (htext.append hsep).append (ih htexts)

theorem rows_of_oneRow (h : OneRow s) : rows s = [s] := by
  rw [rows, List.splitOnP_eq_singleton h, List.map_singleton, String.ofList_toList]

theorem rows_newline (s t : String) : rows (s ++ "\n" ++ t) = rows s ++ rows t := by
  have hsplit : (s.toList ++ '\n' :: t.toList).splitOnP isBreak =
      s.toList.splitOnP isBreak ++ t.toList.splitOnP isBreak := List.splitOnP_append_cons _ _ rfl
  have htext : (s ++ "\n" ++ t).toList = s.toList ++ '\n' :: t.toList := by simp
  rw [rows, htext, hsplit, List.map_append, rows, rows]

theorem mem_rows_joinWith {texts : List String} (h : ∀ text ∈ texts, OneRow text) :
    ∀ row ∈ rows (joinWith "\n" texts), row = "" ∨ row ∈ texts := by
  induction texts with
  | nil => exact fun row hrow => .inl (List.mem_singleton.mp hrow)
  | cons text texts ih =>
    intro row hrow
    obtain ⟨htext, htexts⟩ := List.forall_mem_cons.mp h
    cases texts with
    | nil =>
      rw [joinWith_singleton, rows_of_oneRow htext] at hrow
      exact .inr hrow
    | cons next texts =>
      rw [joinWith_cons_cons, rows_newline, rows_of_oneRow htext] at hrow
      rcases List.mem_cons.mp hrow with rfl | hrow
      · exact .inr List.mem_cons_self
      · exact (ih htexts row hrow).imp_right (List.mem_cons_of_mem _)

/-! ### Lines are cut at line feeds -/

theorem mem_cutLines {l cs : List Char} (h : l ∈ cutLines cs) :
    ∃ body, '\n' ∉ body ∧ (l = body ∨ l = body ++ ['\n']) := by
  induction cs using lines_induction with
  | nil => cases h
  | last body hne hbody =>
    rw [cutLines_of_not_mem hne hbody] at h
    exact ⟨body, hbody, .inl (List.mem_singleton.mp h)⟩
  | line body rest hbody ih =>
    rw [cutLines_newline hbody] at h
    rcases List.mem_cons.mp h with rfl | h
    · exact ⟨body, hbody, .inr rfl⟩
    · exact ih h

theorem not_mem_lines {line : String} (h : line ∈ lines s) : '\n' ∉ line.toList := by
  obtain ⟨l, hl, rfl⟩ := List.mem_map.mp h
  obtain ⟨body, hbody, hcase⟩ := mem_cutLines hl
  rw [String.toList_ofList]
  rcases hcase with rfl | rfl
  · unfold dropLineEnd
    split
    · next hrev => exact absurd (List.mem_reverse.mp (hrev ▸ List.mem_cons_self)) hbody
    · next hrev => exact absurd (List.mem_reverse.mp (hrev ▸ List.mem_cons_self)) hbody
    · exact hbody
  · unfold dropLineEnd
    rw [List.reverse_append, List.reverse_singleton, List.singleton_append]
    intro hmem
    refine hbody (List.mem_reverse.mp ?_)
    split at hmem
    · next hrev =>
      rw [(List.cons.inj hrev).2]
      exact List.mem_cons_of_mem _ (List.mem_reverse.mp hmem)
    · next hrev =>
      rw [(List.cons.inj hrev).2]
      exact List.mem_reverse.mp hmem
    · next hnot => exact absurd rfl (hnot _)

end Text

/-! ### The text of a function -/

/-- Code one level in is set off by spaces and tabs, and the placeholder breaks no row. -/
structure Options.Tidy (options : Options) : Prop where
  indent : options.indent ≠ ""
  pads : ∀ c ∈ options.indent.toList, c = ' ' ∨ c = '\t'
  placeholder : ∀ line ∈ Text.lines options.placeholder, '\r' ∉ line.toList

namespace CustomBlock

open Text

variable {options : Options} {c : CustomBlock} {cs : List CustomBlock} {callee name : String}

/-- The parameters stand on one row, and the lines of the body are its rows. -/
structure Tidy (c : CustomBlock) : Prop where
  params : ∀ param ∈ c.params, OneRow param
  body : ∀ line ∈ Text.lines c.body, '\r' ∉ line.toList

/-- The head of a function. -/
def head (callee : String) (params : List String) : String :=
  "def " ++ callee ++ "(" ++ joinWith ", " params ++ "):"

/-- A line of a body, and the row of the function that stands for it. -/
inductive SuiteRow (indent : String) : String → String → Prop
  | blank {line : String} (h : isBlank line = true) : SuiteRow indent line ""
  | code {line : String} (h : isBlank line = false) : SuiteRow indent line (indent ++ line)

/-- The text is a function with that head, and its suite is the body one level in. The placeholder
stands for a blank body. -/
def Defines (options : Options) (callee : String) (params : List String) (body code : String) : Prop :=
  ∃ suite,
    List.Forall₂ (SuiteRow options.indent)
      (lines (if isBlank body then options.placeholder else body)) suite ∧
    code = head callee params ++ "\n" ++ joinWith "\n" suite ++ "\n\n"

theorem suiteRow_bodyLine (options : Options) (line : String) :
    SuiteRow options.indent line (bodyLine options line) := by
  rw [bodyLine]
  split
  · next h => exact .blank h
  · next h => exact .code (Bool.eq_false_iff.mpr h)

theorem functionCode_eq (options : Options) (c : CustomBlock) :
    c.functionCode options = head c.safeName c.params ++ "\n" ++
      joinWith "\n" ((lines (if isBlank c.body then options.placeholder else c.body)).map
        (bodyLine options)) ++ "\n\n" := by
  have hline : "):\n" = "):" ++ "\n" := rfl
  rw [functionCode, hline]
  simp only [head, String.append_assoc]

theorem defines_functionCode (options : Options) (c : CustomBlock) :
    Defines options c.safeName c.params c.body (c.functionCode options) := by
  refine ⟨_, ?_, functionCode_eq options c⟩
  exact List.forall₂_map_right_iff.mpr (List.forall₂_same.mpr fun line _ =>
    suiteRow_bodyLine options line)

/-- The prologue is one function for each custom block, in their order. -/
theorem prologue_defines (options : Options) (cs : List CustomBlock) :
    ∃ codes, List.Forall₂ (fun c code => Defines options c.safeName c.params c.body code) cs codes ∧
      prologue options cs = String.join codes := by
  induction cs with
  | nil => exact ⟨[], .nil, rfl⟩
  | cons c cs ih =>
    obtain ⟨codes, hcodes, hjoin⟩ := ih
    exact ⟨_, .cons (defines_functionCode options c) hcodes, by rw [prologue, hjoin, String.join_cons]⟩

/-! ### Which rows begin a function -/

theorem SuiteRow.oneRow {line row : String} (hoptions : options.Tidy) (hn : '\n' ∉ line.toList)
    (hr : '\r' ∉ line.toList) (h : SuiteRow options.indent line row) : OneRow row := by
  cases h with
  | blank _ => exact fun c hc => absurd hc (by simp)
  | code _ =>
    refine OneRow.append (fun c hc => ?_) (oneRow_iff.mpr ⟨hn, hr⟩)
    rcases hoptions.pads c hc with rfl | rfl <;> rfl

theorem not_startsWith_empty : "".startsWith ("def " ++ callee ++ "(") = false := by
  rw [Bool.eq_false_iff, ne_eq, String.startsWith_string_iff]
  simp

theorem SuiteRow.not_startsWith {line row : String} (hoptions : options.Tidy)
    (h : SuiteRow options.indent line row) : row.startsWith ("def " ++ callee ++ "(") = false := by
  cases h with
  | blank _ => exact not_startsWith_empty
  | code _ =>
    obtain ⟨pad, pads, hindent⟩ : ∃ pad pads, options.indent.toList = pad :: pads :=
      List.exists_cons_of_ne_nil fun hnil => hoptions.indent (String.toList_eq_nil_iff.mp hnil)
    have hpad := hoptions.pads pad (hindent ▸ List.mem_cons_self)
    rw [Bool.eq_false_iff, ne_eq, String.startsWith_string_iff]
    simp only [String.toList_append, hindent, List.cons_append]
    intro hlead
    obtain ⟨heq, -⟩ := List.cons_prefix_cons.mp hlead
    rcases hpad with rfl | rfl <;> cases heq

theorem prefix_paren_iff {as bs rest : List Char} (ha : '(' ∉ as) (hb : '(' ∉ bs) :
    as ++ ['('] <+: bs ++ '(' :: rest ↔ as = bs := by
  induction as generalizing bs with
  | nil =>
    cases bs with
    | nil => simp
    | cons b bs => simpa [eq_comm] using List.ne_of_not_mem_cons hb
  | cons a as ih =>
    cases bs with
    | nil =>
      rw [List.cons_append, List.nil_append, List.cons_prefix_cons]
      exact iff_of_false (fun h => List.ne_of_not_mem_cons ha h.1.symm) (List.cons_ne_nil a as)
    | cons b bs =>
      have hstep := ih (List.not_mem_of_not_mem_cons ha) (List.not_mem_of_not_mem_cons hb)
      rw [List.cons_append, List.cons_append, List.cons_prefix_cons, hstep, List.cons.injEq]

theorem head_startsWith_iff {params : List String} (hcallee : IsIdentifier callee)
    (hname : IsIdentifier name) :
    (head name params).startsWith ("def " ++ callee ++ "(") = true ↔ name = callee := by
  have hparen : ∀ s, IsIdentifier s → '(' ∉ s.toList := fun s hs hmem =>
    absurd (hs.isAlphanum_or _ hmem) (by decide)
  have hhead : (head name params).toList =
      "def ".toList ++ (name.toList ++ '(' :: (joinWith ", " params ++ "):").toList) := by
    simp [head]
  have hlead : ("def " ++ callee ++ "(").toList = "def ".toList ++ (callee.toList ++ ['(']) := by
    simp
  rw [String.startsWith_string_iff, hhead, hlead, List.prefix_append_right_inj,
    prefix_paren_iff (hparen _ hcallee) (hparen _ hname), String.toList_inj]
  exact eq_comm

theorem Tidy.lines_oneRow (hc : c.Tidy) (hoptions : options.Tidy) :
    ∀ line ∈ lines (if isBlank c.body then options.placeholder else c.body),
      '\n' ∉ line.toList ∧ '\r' ∉ line.toList := by
  intro line hline
  refine ⟨not_mem_lines hline, ?_⟩
  split at hline
  · exact hoptions.placeholder line hline
  · exact hc.body line hline

/-- The rows of a function are its head, rows that begin no function, and an empty one. -/
theorem Tidy.rows_functionCode (hc : c.Tidy) (hoptions : options.Tidy) (rest : String) :
    ∃ suite, rows (c.functionCode options ++ rest) =
        head c.safeName c.params :: (suite ++ "" :: rows rest) ∧
      ∀ row ∈ suite, ∀ callee, row.startsWith ("def " ++ callee ++ "(") = false := by
  set body := lines (if isBlank c.body then options.placeholder else c.body) with hbody
  have hone : ∀ row ∈ body.map (bodyLine options), OneRow row := by
    intro row hrow
    obtain ⟨line, hline, rfl⟩ := List.mem_map.mp hrow
    obtain ⟨hn, hr⟩ := hc.lines_oneRow hoptions line hline
    exact (suiteRow_bodyLine options line).oneRow hoptions hn hr
  have hhead : OneRow (head c.safeName c.params) := by
    have hparams : OneRow (joinWith ", " c.params) := oneRow_joinWith (by decide) hc.params
    have hname : OneRow c.safeName := (isIdentifier_safeName c.name).oneRow
    have hlead : OneRow ("def " ++ c.safeName ++ "(") :=
      (OneRow.append (by decide) hname).append (by decide)
    exact (hlead.append hparams).append (by decide)
  refine ⟨rows (joinWith "\n" (body.map (bodyLine options))), ?_, fun row hrow callee => ?_⟩
  · have htext : c.functionCode options ++ rest = head c.safeName c.params ++ "\n" ++
        (joinWith "\n" (body.map (bodyLine options)) ++ "\n" ++ ("" ++ "\n" ++ rest)) := by
      have hend : "\n\n" = "\n" ++ "\n" := rfl
      rw [functionCode_eq, hend, String.empty_append]
      simp only [String.append_assoc, hbody]
    have hempty : rows "" = [""] := rfl
    rw [htext, rows_newline, rows_of_oneRow hhead, rows_newline, rows_newline, hempty,
      List.singleton_append, List.singleton_append]
  · rcases mem_rows_joinWith hone row hrow with rfl | hrow
    · exact not_startsWith_empty
    · obtain ⟨line, -, rfl⟩ := List.mem_map.mp hrow
      exact (suiteRow_bodyLine options line).not_startsWith hoptions

/-- The rows that begin a function of that name are the heads of the custom blocks that have it. -/
theorem filter_rows_prologue (hoptions : options.Tidy) (hcs : ∀ c ∈ cs, c.Tidy)
    (hcallee : IsIdentifier callee) :
    (rows (prologue options cs)).filter (·.startsWith ("def " ++ callee ++ "(")) =
      (cs.filter fun c => c.safeName = callee).map fun c => head c.safeName c.params := by
  induction cs with
  | nil =>
    show [""].filter (·.startsWith ("def " ++ callee ++ "(")) = []
    rw [List.filter_cons_of_neg (by rw [not_startsWith_empty]; exact Bool.false_ne_true), List.filter_nil]
  | cons c cs ih =>
    obtain ⟨hc, hcs⟩ := List.forall_mem_cons.mp hcs
    obtain ⟨suite, hrows, hsuite⟩ := hc.rows_functionCode hoptions (prologue options cs)
    have hnone : suite.filter (·.startsWith ("def " ++ callee ++ "(")) = [] :=
      List.filter_eq_nil_iff.mpr fun row hrow => by rw [hsuite row hrow]; exact Bool.false_ne_true
    have hrest : (suite ++ "" :: rows (prologue options cs)).filter
        (·.startsWith ("def " ++ callee ++ "(")) =
        (cs.filter fun c => c.safeName = callee).map fun c => head c.safeName c.params := by
      rw [List.filter_append, hnone, List.nil_append,
        List.filter_cons_of_neg (by rw [not_startsWith_empty]; exact Bool.false_ne_true), ih hcs]
    have hhead : (head c.safeName c.params).startsWith ("def " ++ callee ++ "(") =
        decide (c.safeName = callee) := by
      rw [Bool.eq_iff_iff, decide_eq_true_iff]
      exact head_startsWith_iff hcallee (isIdentifier_safeName c.name)
    rw [prologue, hrows, List.filter_cons, List.filter_cons, hhead, hrest]
    split
    · rfl
    · rfl

end CustomBlock

end Blockwright
