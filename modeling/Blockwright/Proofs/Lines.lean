import Blockwright.Text.Lines

/-!
# Lines and their indentation

Texts that end a line can be put one after the other without a line being joined to the next
(`cutLines_append`). Indentation works on the lines one by one: it keeps the blank ones, puts the
same text in front of the others (`contentLines_indentLines`), and can be taken back
(`dedentLines_indentLines`). The indent may be any text that has no line feed.
-/

namespace Blockwright.Text

variable {s t indent code : String} {l cs ds rest : List Char}

/-- The text ends with a line feed. -/
def EndsLine (s : String) : Prop := s.toList.getLast? = some '\n'

instance (s : String) : Decidable (EndsLine s) :=
  inferInstanceAs (Decidable (s.toList.getLast? = some '\n'))

theorem EndsLine.append (s : String) (h : EndsLine t) : EndsLine (s ++ t) := by
  rw [EndsLine, String.toList_append, List.getLast?_append, h]
  rfl

theorem endsLine_newline (s : String) : EndsLine (s ++ "\n") := EndsLine.append s rfl

/-! ### Cutting -/

theorem cutLines_newline (hl : '\n' ∉ l) :
    cutLines (l ++ '\n' :: rest) = (l ++ ['\n']) :: cutLines rest := by
  induction l with
  | nil => rw [List.nil_append, cutLines, if_pos rfl]; rfl
  | cons c l ih =>
    rw [List.cons_append, cutLines, if_neg (List.ne_of_not_mem_cons hl).symm,
      ih (List.not_mem_of_not_mem_cons hl)]
    rfl

theorem cutLines_of_not_mem (hne : l ≠ []) (hl : '\n' ∉ l) : cutLines l = [l] := by
  induction l with
  | nil => exact absurd rfl hne
  | cons c l ih =>
    rw [cutLines, if_neg (List.ne_of_not_mem_cons hl).symm]
    cases l with
    | nil => rfl
    | cons d l => rw [ih (List.cons_ne_nil d l) (List.not_mem_of_not_mem_cons hl)]

/-- A text is empty, or an open last line, or a line and the rest. -/
theorem lines_induction {P : List Char → Prop} (nil : P [])
    (last : ∀ l, l ≠ [] → '\n' ∉ l → P l)
    (line : ∀ l rest, '\n' ∉ l → P rest → P (l ++ '\n' :: rest)) (cs : List Char) : P cs := by
  induction hn : cs.length using Nat.strongRecOn generalizing cs with
  | _ n ih =>
    by_cases hmem : '\n' ∈ cs
    · obtain ⟨l, rest, rfl, hl⟩ := List.eq_append_cons_of_mem hmem
      refine line l rest hl (ih rest.length ?_ rest rfl)
      rw [List.length_append, List.length_cons] at hn
      omega
    · by_cases hne : cs = []
      · exact hne ▸ nil
      · exact last cs hne hmem

theorem cutLines_append (h : cs.getLast? = some '\n') :
    cutLines (cs ++ ds) = cutLines cs ++ cutLines ds := by
  induction cs using lines_induction with
  | nil => cases h
  | last l hne hl => exact absurd (List.mem_of_getLast? h) hl
  | line l rest hl ih =>
    rw [List.append_assoc, List.cons_append, cutLines_newline hl, cutLines_newline hl]
    cases rest with
    | nil => rfl
    | cons c rest =>
      rw [ih (by simpa [List.getLast?_append] using h)]
      rfl

/-! ### Lines that are not blank -/

/-- The lines of a text that are not blank, with their line ends. -/
def contentLines (s : String) : List String :=
  ((cutLines s.toList).filter fun l => !l.all isSpace).map String.ofList

theorem contentLines_append (h : EndsLine s) (t : String) :
    contentLines (s ++ t) = contentLines s ++ contentLines t := by
  simp only [contentLines, String.toList_append, cutLines_append h, List.filter_append,
    List.map_append]

theorem contentLines_eq_nil : contentLines s = [] ↔ isBlank s = true := by
  have hchars : isBlank s = (cutLines s.toList).flatten.all isSpace := by
    rw [flatten_cutLines]
    rfl
  rw [hchars, List.all_flatten]
  simp [contentLines, List.filter_eq_nil_iff]

theorem contentLines_line (hl : '\n' ∉ s.toList) (hblank : isBlank s = false) :
    contentLines (s ++ "\n") = [s ++ "\n"] := by
  have hcut : cutLines (s ++ "\n").toList = [(s ++ "\n").toList] := by
    rw [String.toList_append]
    exact cutLines_newline hl
  have hfilled : ((s ++ "\n").toList.all isSpace) = false := by
    rw [String.toList_append, List.all_append, Bool.and_eq_false_iff]
    exact .inl hblank
  rw [contentLines, hcut, List.filter_cons_of_pos (by rw [hfilled]; rfl)]
  simp

/-! ### Indentation -/

/-- The line without an indent, unless it is blank. -/
def dedentLine (indent line : List Char) : List Char :=
  if line.all isSpace then line else line.drop indent.length

/-- Every line that is not blank loses an indent. -/
def dedentLines (indent code : String) : String :=
  String.ofList ((cutLines code.toList).flatMap (dedentLine indent.toList))

theorem all_indentLine (indent line : List Char) :
    (indentLine indent line).all isSpace = line.all isSpace := by
  rw [indentLine]
  split
  · rfl
  · next h => rw [List.all_append, Bool.eq_false_iff.mpr h, Bool.and_false]

theorem indentLine_newline (indent : List Char) :
    indentLine indent (l ++ ['\n']) = (if l.all isSpace then l else indent ++ l) ++ ['\n'] := by
  have hall : (l ++ ['\n']).all isSpace = l.all isSpace := by
    rw [List.all_append]
    exact Bool.and_true _
  rw [indentLine, hall]
  split
  · rfl
  · exact (List.append_assoc ..).symm

theorem cutLines_indent {indent : List Char} (h : '\n' ∉ indent) (cs : List Char) :
    cutLines ((cutLines cs).flatMap (indentLine indent)) = (cutLines cs).map (indentLine indent) := by
  induction cs using lines_induction with
  | nil => rfl
  | last l hne hl =>
    rw [cutLines_of_not_mem hne hl, List.flatMap_singleton, List.map_singleton, indentLine]
    split
    · exact cutLines_of_not_mem hne hl
    · exact cutLines_of_not_mem (by simp [hne]) (by simp [h, hl])
  | line l rest hl ih =>
    have hline : '\n' ∉ (if l.all isSpace then l else indent ++ l) := by
      split
      · exact hl
      · simp [h, hl]
    rw [cutLines_newline hl, List.flatMap_cons, List.map_cons, indentLine_newline, List.append_assoc,
      List.singleton_append, cutLines_newline hline, ih]

section Indent

variable (h : '\n' ∉ indent.toList)
include h

theorem cutLines_indentLines (code : String) : cutLines (indentLines indent code).toList =
    (cutLines code.toList).map (indentLine indent.toList) := by
  rw [indentLines, String.toList_ofList, cutLines_indent h]

theorem contentLines_indentLines (code : String) :
    contentLines (indentLines indent code) = (contentLines code).map (indent ++ ·) := by
  rw [contentLines, cutLines_indentLines h, List.filter_map, List.map_map, contentLines,
    List.map_map]
  have hfilter : (fun l => !l.all isSpace) ∘ indentLine indent.toList = fun l => !l.all isSpace :=
    funext fun l => by rw [Function.comp, all_indentLine]
  rw [hfilter]
  refine List.map_congr_left fun l hl => ?_
  have hfilled : ¬ l.all isSpace = true := by simpa using (List.mem_filter.mp hl).2
  simp only [Function.comp, indentLine, if_neg hfilled, String.ofList_append, String.ofList_toList]

theorem dedentLines_indentLines (code : String) :
    dedentLines indent (indentLines indent code) = code := by
  have hline : ∀ l, dedentLine indent.toList (indentLine indent.toList l) = l := by
    intro l
    rw [dedentLine, all_indentLine, indentLine]
    split
    · rfl
    · exact List.drop_left
  rw [dedentLines, cutLines_indentLines h, List.flatMap_map, funext hline, List.flatMap_id',
    flatten_cutLines, String.ofList_toList]

end Indent

theorem endsLine_indentLines (h : EndsLine code) : EndsLine (indentLines indent code) := by
  have hchars : ∀ cs : List Char, cs.getLast? = some '\n' →
      ((cutLines cs).flatMap (indentLine indent.toList)).getLast? = some '\n' := by
    intro cs
    induction cs using lines_induction with
    | nil => exact nofun
    | last l hne hl => exact fun h => absurd (List.mem_of_getLast? h) hl
    | line l rest hl ih =>
      intro h
      rw [cutLines_newline hl, List.flatMap_cons, indentLine_newline]
      cases rest with
      | nil => simp [cutLines]
      | cons c rest =>
        rw [List.getLast?_append, ih (by simpa [List.getLast?_append] using h)]
        rfl
  rw [EndsLine, indentLines, String.toList_ofList]
  exact hchars code.toList h

end Blockwright.Text
