import Blockwright.Proofs.Indentation
import Blockwright.Proofs.Layout

/-!
# Normal form of programs

A program should start with a line that is not blank, have no spaces or tabs at line ends, and end
with one line feed and no other white space. `Text.neat_layOut_iff` says which texts get this form
from the final layout: a single empty line at the start is not dropped, and neither is white space
other than spaces and tabs at the end of the last line. Main statement: `Compiler.program_neat_iff`.
-/

namespace Blockwright

namespace Text

variable {c : Char} {cs before after lead core trail : List Char}

/-- The form of a program that is not empty. -/
structure Neat (cs : List Char) : Prop where
  /-- The first line is not blank. -/
  first : (cs.takeWhile (· != '\n')).all isSpace = false
  /-- No line ends with a space or tab. -/
  lines : ∀ l ∈ cs.splitOn '\n', l.getLast?.any isPad = false
  /-- The text ends with a line feed, and there is no white space before that. -/
  last : ∃ body c, cs = body ++ [c, '\n'] ∧ isSpace c = false

/-- The white space at the start is a line feed and no other line feed. -/
def OpensOnce (cs : List Char) : Prop := ∃ w, cs.takeWhile isSpace = '\n' :: w ∧ '\n' ∉ w

/-- The white space at the end has a line feed, with nothing but spaces and tabs before it. -/
def Closes (cs : List Char) : Prop :=
  ∃ pads rest, cs.rtakeWhile isSpace = pads ++ '\n' :: rest ∧ pads.all isPad = true

/-! ### Lines without pads -/

theorem getLast?_rdropWhile_isPad (l : List Char) :
    (l.rdropWhile isPad).getLast?.any isPad = false := by
  by_cases hnil : l.rdropWhile isPad = []
  · rw [hnil]
    rfl
  · rw [List.getLast?_eq_some_getLast hnil]
    exact Bool.eq_false_iff.mpr (List.rdropWhile_last_not isPad l hnil)

theorem splitOn_newline {l : List Char} (h : '\n' ∉ l) (rest : List Char) :
    (l ++ '\n' :: rest).splitOn '\n' = l :: rest.splitOn '\n' := by
  have hsplit : (l ++ '\n' :: rest).splitOn '\n' = l.splitOn '\n' ++ rest.splitOn '\n' :=
    List.splitOnP_append_cons l rest rfl
  rw [hsplit, splitOn_of_not_mem h, List.singleton_append]

/-- A line that has a line end has no pads. -/
theorem lines_dropLinePads (cs : List Char) :
    ∀ l ∈ ((dropLinePads cs).splitOn '\n').dropLast, l.getLast?.any isPad = false := by
  induction cs using lines_induction with
  | nil => exact List.forall_mem_nil _
  | last l hne hl =>
    rw [dropLinePads_of_not_mem hl, splitOn_of_not_mem hl]
    exact List.forall_mem_nil _
  | line l rest hl ih =>
    rw [dropLinePads_newline hl, splitOn_newline (not_mem_rdropWhile hl),
      List.dropLast_cons_of_ne_nil (List.splitOn_ne_nil _ _)]
    exact List.forall_mem_cons.mpr ⟨getLast?_rdropWhile_isPad l, ih⟩

/-! ### Texts that get the form -/

theorem neat_framed_iff (hlead : lead.all isSpace = true) (hn : '\n' ∉ lead.tail)
    (hcore : Solid core) (htrail : trail.all isSpace = true)
    (hlines : ∀ l ∈ ((lead ++ core ++ trail).splitOn '\n').dropLast, l.getLast?.any isPad = false) :
    Neat (lead ++ core ++ trail) ↔ '\n' ∉ lead ∧ trail = ['\n'] := by
  obtain ⟨c, rest, hc, hspace⟩ := hcore.first
  obtain ⟨init, d, hd, hspace'⟩ := hcore.last
  constructor
  · rintro ⟨hfirst, -, body, e, hlast, he⟩
    constructor
    · intro hmem
      cases lead with
      | nil => cases hmem
      | cons x lead =>
        obtain rfl : '\n' = x := (List.mem_cons.mp hmem).resolve_right hn
        simp at hfirst
    · have htail : (body ++ e :: ['\n']).rtakeWhile isSpace = ['\n'] := rtakeWhile_solid he rfl
      rw [← hlast, hd, List.append_assoc, List.append_assoc, ← List.append_assoc lead,
        List.singleton_append, rtakeWhile_solid hspace' htrail] at htail
      exact htail
  · rintro ⟨hmem, rfl⟩
    have hsplit : (lead ++ core ++ ['\n']).splitOn '\n' = (lead ++ core).splitOn '\n' ++ [[]] :=
      List.splitOnP_append_cons (lead ++ core) [] rfl
    rw [hsplit, List.dropLast_concat] at hlines
    refine ⟨?_, ?_, lead ++ init, d, ?_, hspace'⟩
    · have hc' : (c != '\n') = true := bne_iff_ne.mpr (ne_newline_of_isSpace_eq_false hspace)
      rw [hc, List.append_assoc, List.cons_append,
        List.takeWhile_append_of_pos (ne_newline_of_mem hmem),
        List.takeWhile_cons_of_pos (p := (· != '\n')) hc', List.all_append, List.all_cons, hspace,
        Bool.false_and, Bool.and_false]
    · rw [hsplit]
      exact List.forall_mem_append.mpr ⟨hlines, List.forall_mem_singleton.mpr rfl⟩
    · rw [hd]
      simp

theorem not_mem_dropLeadingBlank_iff (h : lead.all isSpace = true) :
    '\n' ∉ dropLeadingBlank lead ↔ ¬ ∃ w, lead = '\n' :: w ∧ '\n' ∉ w := by
  rw [not_iff_not]
  rcases leading_cases lead with hn | ⟨before, after, hne, rfl, hn⟩
  · rw [dropLeadingBlank_self h hn]
    cases lead with
    | nil => simp
    | cons c lead =>
      rw [List.tail_cons] at hn
      simp [hn, eq_comm]
  · rw [dropLeadingBlank_newline h hne hn]
    refine ⟨fun hmem => absurd hmem hn, ?_⟩
    rintro ⟨w, heq, hw⟩
    cases before with
    | nil => exact absurd rfl hne
    | cons c before =>
      rw [List.cons_append, List.cons.injEq] at heq
      exact absurd (heq.2 ▸ by simp) hw

theorem closing_iff (h : trail.all isSpace = true) :
    dropLinePads (dropTrailingBlank trail) = ['\n'] ↔
      ∃ pads rest, trail = pads ++ '\n' :: rest ∧ pads.all isPad = true := by
  constructor
  · intro hclose
    rcases closing_cases h with ⟨hn, hself⟩ | ⟨before, after, htrail, -, hline⟩
    · rw [← hself, hclose] at hn
      exact absurd (List.mem_singleton_self _) hn
    · rw [hclose, List.self_eq_append_left] at hline
      exact ⟨before, after, htrail, List.all_eq_true.mpr (List.rdropWhile_eq_nil_iff.mp hline)⟩
  · rintro ⟨pads, rest, rfl, hpads⟩
    have hn : '\n' ∉ pads := fun hmem =>
      absurd (List.all_eq_true.mp hpads _ hmem) (by decide)
    rw [dropTrailingBlank_newline h hn, dropLinePads_pads hpads]
    rfl

theorem getLast?_newline_iff (hn : '\n' ∉ after) :
    (before ++ '\n' :: after).getLast? = some '\n' ↔ after = [] := by
  constructor
  · intro hlast
    cases after with
    | nil => rfl
    | cons c after =>
      rw [List.append_cons, List.getLast?_append_cons] at hlast
      exact absurd (List.mem_of_getLast? hlast) hn
  · rintro rfl
    simp

theorem neat_layOut_blank_iff (h : cs.all isSpace = true) : layOut cs = [] ∨ Neat (layOut cs) ↔
    cs = [] ∨ ¬ OpensOnce cs ∧ cs.getLast? = some '\n' := by
  have hopens : OpensOnce cs ↔ ∃ w, cs = '\n' :: w ∧ '\n' ∉ w := by
    rw [OpensOnce, List.takeWhile_eq_self_iff.mpr (List.all_eq_true.mp h)]
  have hneat : ¬ Neat (layOut cs) := by
    rintro ⟨-, -, body, c, hlast, hc⟩
    have hblank := layOut_all h
    simp [hlast, hc] at hblank
  rw [or_iff_left hneat, hopens]
  rcases layOut_blank h with ⟨hn, hself⟩ | ⟨⟨hhead, hn⟩, hline⟩ | ⟨before, after, hne, rfl, hn, hafter⟩
  · rw [hself]
    exact (or_iff_left fun hlast => hn (List.mem_of_getLast? hlast.2)).symm
  · obtain ⟨w, rfl⟩ := List.head?_eq_some_iff.mp hhead
    rw [hline]
    exact iff_of_false (List.cons_ne_nil _ _)
      (not_or.mpr ⟨List.cons_ne_nil _ _, fun hnot => hnot.1 ⟨w, rfl, hn⟩⟩)
  · have hnot : ¬ ∃ w, before ++ '\n' :: after = '\n' :: w ∧ '\n' ∉ w := by
      refine (not_mem_dropLeadingBlank_iff h).mp ?_
      rwa [dropLeadingBlank_newline h hne hn]
    rw [hafter, getLast?_newline_iff hn, and_iff_right hnot, or_iff_right (by simp)]

theorem neat_layOut_framed_iff (hlead : lead.all isSpace = true) (hcore : Solid core)
    (htrail : trail.all isSpace = true) : Neat (layOut (lead ++ core ++ trail)) ↔
      ¬ OpensOnce (lead ++ core ++ trail) ∧ Closes (lead ++ core ++ trail) := by
  obtain ⟨hblank, hn⟩ := dropLeadingBlank_blank hlead
  have hopens : OpensOnce (lead ++ core ++ trail) ↔ ∃ w, lead = '\n' :: w ∧ '\n' ∉ w := by
    obtain ⟨c, rest, rfl, hc⟩ := hcore.first
    rw [OpensOnce, List.append_assoc, List.cons_append, takeWhile_solid hlead hc]
  have hcloses : Closes (lead ++ core ++ trail) ↔
      ∃ pads rest, trail = pads ++ '\n' :: rest ∧ pads.all isPad = true := by
    obtain ⟨init, d, rfl, hd⟩ := hcore.last
    rw [Closes, List.append_assoc, List.append_assoc, ← List.append_assoc lead,
      List.singleton_append, rtakeWhile_solid hd htrail]
  have hlines := lines_dropLinePads (dropTrailingBlank (dropLeadingBlank (lead ++ core ++ trail)))
  have hout := layOut_framed hlead hcore htrail
  rw [← layOut, hout] at hlines
  rw [hopens, hcloses, hout,
    neat_framed_iff hblank hn hcore.dropLinePads (closing_closed htrail).1 hlines,
    not_mem_dropLeadingBlank_iff hlead, closing_iff htrail]

/-- A text gets the form if it does not start with one empty line alone and has nothing but spaces
and tabs before the last line end that counts. -/
theorem neat_layOut_iff (cs : List Char) : layOut cs = [] ∨ Neat (layOut cs) ↔
    cs = [] ∨ ¬ OpensOnce cs ∧ if cs.all isSpace then cs.getLast? = some '\n' else Closes cs := by
  rcases blank_or_framed cs with h | ⟨lead, core, trail, rfl, hlead, hcore, htrail⟩
  · rw [if_pos h]
    exact neat_layOut_blank_iff h
  · have hout : layOut (lead ++ core ++ trail) ≠ [] := by
      obtain ⟨c, rest, hc, -⟩ := hcore.dropLinePads.first
      rw [layOut_framed hlead hcore htrail, hc]
      simp
    obtain ⟨c, rest, hc, hspace⟩ := hcore.first
    have hfilled : ¬ (lead ++ core ++ trail).all isSpace = true := by simp [hc, hspace]
    have hne : lead ++ core ++ trail ≠ [] := by simp [hc]
    rw [if_neg hfilled, or_iff_right hout, or_iff_right hne]
    exact neat_layOut_framed_iff hlead hcore htrail

/-- The final layout leaves the last line ended. -/
theorem getLast?_layOut (h : cs.getLast? = some '\n') :
    layOut cs = [] ∨ (layOut cs).getLast? = some '\n' := by
  rcases blank_or_framed cs with hblank | ⟨lead, core, trail, rfl, hlead, hcore, htrail⟩
  · rcases layOut_blank hblank with ⟨hn, -⟩ | ⟨-, hline⟩ | ⟨before, after, -, rfl, hn, hafter⟩
    · exact absurd (List.mem_of_getLast? h) hn
    · exact .inr (by rw [hline]; rfl)
    · exact .inl (by rw [hafter, (getLast?_newline_iff hn).mp h])
  · rw [layOut_framed hlead hcore htrail]
    rcases closing_cases htrail with ⟨hn, -⟩ | ⟨before, after, -, -, hclose⟩
    · -- without a line end the text would end with the last character that is seen
      obtain ⟨init, d, rfl, hd⟩ := hcore.last
      rw [List.getLast?_append] at h
      cases hlast : trail.getLast? with
      | none =>
        rw [hlast] at h
        simp at h
        exact absurd h (ne_newline_of_isSpace_eq_false hd)
      | some x =>
        rw [hlast] at h
        cases h
        exact absurd (List.mem_of_getLast? hlast) hn
    · exact .inr (by rw [hclose]; simp)

theorem endsLine_joinWith {texts : List String} (h : ∀ text ∈ texts, EndsLine text) (hne : texts ≠ []) :
    EndsLine (joinWith "\n" texts) := by
  induction texts with
  | nil => exact absurd rfl hne
  | cons text texts ih =>
    cases texts with
    | nil => exact h text (List.mem_cons_self ..)
    | cons next texts =>
      rw [joinWith_cons_cons]
      exact (ih (fun t ht => h t (List.mem_cons_of_mem _ ht)) (List.cons_ne_nil _ _)).append _

end Text

open Text

namespace Compiler

variable {c : Compiler} {code : String} {texts : List String} {roots : List BlockId}

theorem endsLine_stackTexts (hlaid : ∀ t d, c.registry.lookup? t = some d → d.rule.LaidOut)
    (h : c.stackTexts roots = .ok texts) : ∀ text ∈ texts, EndsLine text := by
  rw [stackTexts_eq_mapM, mapM_eq_ok_iff] at h
  induction h with
  | nil => exact List.forall_mem_nil _
  | cons hroot _ ih => exact List.forall_mem_cons.mpr ⟨endsLine_chainWith hlaid hroot, ih⟩

/-- The program of a workspace is in normal form exactly if the code of its stacks, put together,
does not start with one empty line alone, and ends its last line that is not blank by a line feed
with nothing but spaces and tabs before it. In any case no line that has an end ends with a space or
tab, and with rules that end their lines a program ends its last line. -/
theorem program_neat_iff (c : Compiler) (h : c.program = .ok code) :
    ∃ texts, c.stackTexts c.workspace.topBlocks = .ok texts ∧
      (let text := (joinWith "\n" texts).toList
      (code.toList = [] ∨ Neat code.toList ↔ text = [] ∨ ¬ OpensOnce text ∧
        if text.all isSpace then text.getLast? = some '\n' else Closes text)) ∧
      (∀ l ∈ (code.toList.splitOn '\n').dropLast, l.getLast?.any isPad = false) ∧
      ((∀ t d, c.registry.lookup? t = some d → d.rule.LaidOut) → code = "" ∨ EndsLine code) := by
  obtain ⟨texts, htexts, hcode⟩ := bind_eq_ok_iff.mp h
  obtain rfl : finish (joinWith "\n" texts) = code := Except.ok.inj hcode
  refine ⟨texts, htexts, ?_, ?_, fun hlaid => ?_⟩
  · rw [toList_finish]
    exact neat_layOut_iff _
  · rw [toList_finish]
    exact lines_dropLinePads _
  · by_cases hne : texts = []
    · subst hne
      exact .inl (by rfl)
    · have hends : EndsLine (joinWith "\n" texts) :=
        endsLine_joinWith (endsLine_stackTexts hlaid htexts) hne
      rw [EndsLine, toList_finish, ← String.toList_eq_nil_iff, toList_finish]
      exact getLast?_layOut hends

/-- A workspace with one block, which stands for code as it is written. -/
def passageWorkspace (code : String) : Workspace :=
  { blocks :=
      #[some { id := ⟨0⟩, typeId := "python_raw", fields := Dict.empty.insert "CODE" code }]
    top := [⟨0⟩] }

theorem program_passage {registry : Registry}
    (h : registry = ⟨Catalogue.all, Catalogue.distinct_all⟩) :
    let c (code : String) : Compiler := ⟨registry, passageWorkspace code, {}⟩
    (c "\n \n  x = 1 ").program = .ok "  x = 1\n" ∧
      (c "\n \n  x = 1 ").stackTexts (passageWorkspace "\n \n  x = 1 ").topBlocks =
        .ok ["\n \n  x = 1 \n"] ∧
      (c "\nx = 1").program = .ok "\nx = 1\n" := by
  subst h
  decide +kernel

theorem program_neat_iff_indented :
    let c : Compiler :=
      { registry := Registry.stock.grown (fun t => t) []
        workspace := passageWorkspace "\n \n  x = 1 "
        options := {} }
    c.program = .ok "  x = 1\n" ∧ Neat "  x = 1\n".toList := by
  intro c
  obtain ⟨hprogram, hstack, -⟩ := program_passage (Registry.stock_grown_nil fun t => t)
  obtain ⟨texts, htexts, hneat, -⟩ := program_neat_iff c hprogram
  obtain rfl : texts = ["\n \n  x = 1 \n"] := Except.ok.inj (htexts.symm.trans hstack)
  have hopens : ¬ OpensOnce "\n \n  x = 1 \n".toList := by
    rintro ⟨w, hw, hn⟩
    obtain rfl : [' ', '\n', ' ', ' '] = w := (List.cons.inj hw).2
    exact hn (by decide)
  have hcloses : Closes "\n \n  x = 1 \n".toList := ⟨[' '], [], by decide +kernel, rfl⟩
  have hne : "  x = 1\n".toList ≠ [] := by decide
  exact ⟨hprogram, (hneat.mpr (.inr ⟨hopens, hcloses⟩)).resolve_left hne⟩

/-- One empty line at the start stays. -/
theorem program_keeps_empty_line :
    let c : Compiler :=
      { registry := Registry.stock.grown (fun t => t) []
        workspace := passageWorkspace "\nx = 1"
        options := {} }
    ∃ code, c.program = .ok code ∧ ¬ (code.toList = [] ∨ Neat code.toList) := by
  intro c
  refine ⟨"\nx = 1\n", (program_passage (Registry.stock_grown_nil fun t => t)).2.2, ?_⟩
  rintro (hnil | hneat)
  · revert hnil
    decide
  · exact absurd hneat.first (by decide)

end Compiler

end Blockwright
