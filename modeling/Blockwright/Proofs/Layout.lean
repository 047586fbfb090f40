import Blockwright.Proofs.Lines
import Blockwright.Text.Layout
import Mathlib.Data.List.DropRight

/-!
# Final layout

A text that is not blank is a solid one, with white space before and behind it (`blank_or_framed`).
The three passes of `finish` keep to their places: the first one changes the white space before, the
second one the white space behind, and the third one the ends of lines (`layOut_framed`). What the
first two make of white space alone is said by `dropLeadingBlank_newline` and
`dropTrailingBlank_newline`. Main statement: `finish_stable_lossless`.
-/

namespace Blockwright.Text

variable {c : Char} {cs ds before after lead core trail l rest w : List Char}

theorem isSpace_of_isPad (h : isPad c = true) : isSpace c = true := by
  simp only [isPad, Bool.or_eq_true, beq_iff_eq] at h
  rcases h with rfl | rfl <;> decide

theorem isPad_of_isSpace_eq_false (h : isSpace c = false) : isPad c = false := by
  rw [Bool.eq_false_iff] at h ⊢
  exact fun hpad => h (isSpace_of_isPad hpad)

theorem ne_newline_of_isSpace_eq_false (h : isSpace c = false) : c ≠ '\n' := by
  rintro rfl
  revert h
  decide

theorem ne_newline_of_mem (h : '\n' ∉ cs) : ∀ c ∈ cs, (c != '\n') = true := by
  intro c hc
  rw [bne_iff_ne]
  rintro rfl
  exact h hc

theorem all_newline_iff : (before ++ '\n' :: after).all isSpace = true ↔
    before.all isSpace = true ∧ after.all isSpace = true := by
  rw [List.all_append, List.all_cons, Bool.and_eq_true, Bool.and_eq_true]
  exact and_congr_right fun _ => and_iff_right rfl

/-! ### Text between white space -/

/-- The text begins and ends with characters that are not white space. -/
structure Solid (core : List Char) : Prop where
  first : ∃ c rest, core = c :: rest ∧ isSpace c = false
  last : ∃ init c, core = init ++ [c] ∧ isSpace c = false

theorem blank_or_framed (cs : List Char) : cs.all isSpace = true ∨
    ∃ lead core trail, cs = lead ++ core ++ trail ∧ lead.all isSpace = true ∧ Solid core ∧
      trail.all isSpace = true := by
  by_cases hblank : cs.all isSpace = true
  · exact .inl hblank
  right
  have hcs : cs.takeWhile isSpace ++ cs.dropWhile isSpace = cs := List.takeWhile_append_dropWhile
  cases hrest : cs.dropWhile isSpace with
  | nil => exact absurd (List.all_eq_true.mpr (List.dropWhile_eq_nil_iff.mp hrest)) hblank
  | cons c rest =>
    have hc : isSpace c = false := by
      have hhead := List.head?_dropWhile_not isSpace cs
      rwa [hrest] at hhead
    -- the same from the other end; the white space there stops short of `c`
    have hsplit := List.rdropWhile_append_rtakeWhile (p := isSpace) (l := c :: rest)
    have hne : (c :: rest).rdropWhile isSpace ≠ [] := fun hnil => by
      have hall := List.rdropWhile_eq_nil_iff.mp hnil c (List.mem_cons_self ..)
      rw [hc] at hall
      cases hall
    refine ⟨cs.takeWhile isSpace, (c :: rest).rdropWhile isSpace, (c :: rest).rtakeWhile isSpace,
      ?_, List.all_takeWhile, ⟨?_, ?_⟩, ?_⟩
    · rw [List.append_assoc, hsplit, ← hrest, hcs]
    · cases hcore : (c :: rest).rdropWhile isSpace with
      | nil => exact absurd hcore hne
      | cons d core =>
        rw [hcore, List.cons_append, List.cons.injEq] at hsplit
        exact ⟨d, core, rfl, hsplit.1 ▸ hc⟩
    · exact ⟨_, _, (List.dropLast_append_getLast hne).symm,
        Bool.eq_false_iff.mpr (List.rdropWhile_last_not isSpace _ hne)⟩
    · exact List.all_eq_true.mpr fun d hd => List.mem_rtakeWhile_imp hd

theorem exists_last_newline (h : '\n' ∈ cs) : ∃ before after, cs = before ++ '\n' :: after ∧
    '\n' ∉ after := by
  obtain ⟨as, bs, hcs, has⟩ := List.eq_append_cons_of_mem (List.mem_reverse.mpr h)
  refine ⟨bs.reverse, as.reverse, ?_, by simpa using has⟩
  rw [← List.reverse_reverse cs, hcs]
  simp

theorem takeWhile_solid (hlead : lead.all isSpace = true) (hc : isSpace c = false) :
    (lead ++ c :: rest).takeWhile isSpace = lead := by
  rw [List.takeWhile_append_of_pos (List.all_eq_true.mp hlead),
    List.takeWhile_cons_of_neg (by simp [hc]), List.append_nil]

theorem rtakeWhile_solid (hc : isSpace c = false) (htrail : trail.all isSpace = true) :
    (before ++ c :: trail).rtakeWhile isSpace = trail := by
  have hall : ∀ d ∈ trail.reverse, isSpace d = true := fun d hd =>
    List.all_eq_true.mp htrail d (List.mem_reverse.mp hd)
  rw [List.rtakeWhile, List.reverse_append, List.reverse_cons, List.append_assoc,
    List.takeWhile_append_of_pos hall]
  simp [hc]

/-! ### White space before a text -/

theorem cutAfterLastLineFeed_of_not_mem (h : '\n' ∉ cs) : cutAfterLastLineFeed cs = ([], cs) := by
  have htail : cs.reverse.takeWhile (· != '\n') = cs.reverse :=
    List.takeWhile_eq_self_iff.mpr (ne_newline_of_mem (by simpa using h))
  simp [cutAfterLastLineFeed, htail]

theorem cutAfterLastLineFeed_newline (before : List Char) (h : '\n' ∉ after) :
    cutAfterLastLineFeed (before ++ '\n' :: after) = (before ++ ['\n'], after) := by
  have htail : (before ++ '\n' :: after).reverse.takeWhile (· != '\n') = after.reverse := by
    rw [List.reverse_append, List.reverse_cons, List.append_assoc,
      List.takeWhile_append_of_pos (ne_newline_of_mem (by simpa using h))]
    simp
  simp only [cutAfterLastLineFeed, htail, List.reverse_reverse, Prod.mk.injEq, and_true]
  rw [List.append_cons, List.length_append, Nat.add_sub_cancel, List.take_left]

/-- What stands behind the white space does not matter. -/
theorem dropLeadingBlank_append (hlead : lead.all isSpace = true) (hc : isSpace c = false) :
    dropLeadingBlank (lead ++ c :: rest) = dropLeadingBlank lead ++ c :: rest := by
  have hall := List.all_eq_true.mp hlead
  have hdrop : (lead ++ c :: rest).dropWhile isSpace = c :: rest := by
    rw [List.dropWhile_append_of_pos hall, List.dropWhile_cons_of_neg (by simp [hc])]
  simp only [dropLeadingBlank, takeWhile_solid hlead hc, hdrop,
    List.takeWhile_eq_self_iff.mpr hall, List.dropWhile_eq_nil_iff.mpr hall, List.append_nil]
  split <;> rfl

theorem dropLeadingBlank_newline (h : (before ++ '\n' :: after).all isSpace = true)
    (hne : before ≠ []) (hn : '\n' ∉ after) :
    dropLeadingBlank (before ++ '\n' :: after) = after := by
  have hall := List.all_eq_true.mp h
  have hlength : 2 ≤ (before ++ ['\n']).length := by
    have := List.length_pos_of_ne_nil hne
    rw [List.length_append, List.length_singleton]
    omega
  simp only [dropLeadingBlank, List.takeWhile_eq_self_iff.mpr hall, List.dropWhile_eq_nil_iff.mpr hall,
    cutAfterLastLineFeed_newline before hn, if_pos hlength, List.append_nil]

/-- A line feed that is the first character stays. -/
theorem dropLeadingBlank_self (hlead : lead.all isSpace = true) (h : '\n' ∉ lead.tail) :
    dropLeadingBlank lead = lead := by
  have hall := List.all_eq_true.mp hlead
  simp only [dropLeadingBlank, List.takeWhile_eq_self_iff.mpr hall,
    List.dropWhile_eq_nil_iff.mpr hall, List.append_nil]
  by_cases hmem : '\n' ∈ lead
  · obtain ⟨before, after, rfl, hafter⟩ := exists_last_newline hmem
    cases before with
    | nil => rw [cutAfterLastLineFeed_newline [] hafter]; rfl
    | cons d before => exact absurd (by simp) h
  · rw [cutAfterLastLineFeed_of_not_mem hmem]
    rfl

/-- White space of which all but its last line is dropped, or of which nothing is. -/
theorem leading_cases (lead : List Char) : '\n' ∉ lead.tail ∨
    ∃ before after, before ≠ [] ∧ lead = before ++ '\n' :: after ∧ '\n' ∉ after := by
  by_cases h : '\n' ∈ lead.tail
  · obtain ⟨before, after, htail, hafter⟩ := exists_last_newline h
    cases lead with
    | nil => cases h
    | cons c lead => exact .inr ⟨c :: before, after, by simp, by simpa using htail, hafter⟩
  · exact .inl h

/-! ### White space behind a text -/

/-- What stands before the white space does not matter. -/
theorem dropTrailingBlank_append (hc : isSpace c = false) (htrail : trail.all isSpace = true) :
    dropTrailingBlank (before ++ c :: trail) = before ++ c :: dropTrailingBlank trail := by
  have hblank : ((before ++ c :: trail).reverse.takeWhile isSpace).reverse = trail :=
    rtakeWhile_solid hc htrail
  have hself : (trail.reverse.takeWhile isSpace).reverse = trail :=
    List.rtakeWhile_eq_self_iff.mpr (List.all_eq_true.mp htrail)
  have hcode : (before ++ c :: trail).take ((before ++ c :: trail).length - trail.length) =
      before ++ [c] := by
    rw [List.append_cons, List.length_append, Nat.add_sub_cancel, List.take_left]
  simp only [dropTrailingBlank, hblank, hself, hcode, Nat.sub_self, List.take_zero, List.nil_append]
  split <;> simp

theorem dropTrailingBlank_self (h : '\n' ∉ trail) : dropTrailingBlank trail = trail := by
  have hblank : (trail.reverse.takeWhile isSpace).reverse.dropWhile (· != '\n') = [] := by
    refine List.dropWhile_eq_nil_iff.mpr fun c hc => ne_newline_of_mem h c ?_
    exact List.mem_reverse.mp ((List.takeWhile_prefix _).subset (List.mem_reverse.mp hc))
  simp only [dropTrailingBlank, hblank]

theorem dropTrailingBlank_newline (h : (before ++ '\n' :: after).all isSpace = true)
    (hn : '\n' ∉ before) : dropTrailingBlank (before ++ '\n' :: after) = before ++ ['\n'] := by
  have hall : ∀ d ∈ (before ++ '\n' :: after).reverse, isSpace d = true :=
    List.all_eq_true.mp (List.all_reverse.trans h)
  have hkeep := ne_newline_of_mem hn
  simp only [dropTrailingBlank, List.takeWhile_eq_self_iff.mpr hall, List.reverse_reverse,
    Nat.sub_self, List.take_zero, List.nil_append, List.dropWhile_append_of_pos hkeep,
    List.takeWhile_append_of_pos hkeep]
  simp

/-! ### Line ends -/

theorem dropLinePads_cons (h : isPad c = false) (cs : List Char) :
    dropLinePads (c :: cs) = c :: dropLinePads cs := by simp [dropLinePads, h]

theorem dropLinePads_of_not_mem_tail (h : '\n' ∉ cs.tail) : dropLinePads cs = cs := by
  induction cs with
  | nil => rfl
  | cons c cs ih =>
    have hhead : cs.head? ≠ some '\n' := fun heq => h (List.mem_of_head? heq)
    rw [dropLinePads, ih fun hmem => h (List.mem_of_mem_tail hmem)]
    simp [hhead]

theorem dropLinePads_of_not_mem (h : '\n' ∉ cs) : dropLinePads cs = cs :=
  dropLinePads_of_not_mem_tail fun hmem => h (List.mem_of_mem_tail hmem)

/-- A character that is neither a pad nor a line feed keeps the pads before it. -/
theorem dropLinePads_append (hpad : isPad c = false) (hc : c ≠ '\n') (cs ds : List Char) :
    dropLinePads (cs ++ c :: ds) = dropLinePads cs ++ c :: dropLinePads ds := by
  induction cs with
  | nil => exact dropLinePads_cons hpad ds
  | cons d cs ih =>
    have hhead : (dropLinePads cs ++ c :: dropLinePads ds).head? = some '\n' ↔
        (dropLinePads cs).head? = some '\n' := by
      cases dropLinePads cs <;> simp [hc]
    simp only [List.cons_append, dropLinePads, ih, Bool.and_eq_true, beq_iff_eq, hhead]
    split <;> rfl

theorem dropLinePads_pads (h : w.all isPad = true) (rest : List Char) :
    dropLinePads (w ++ '\n' :: rest) = '\n' :: dropLinePads rest := by
  induction w with
  | nil => exact dropLinePads_cons rfl rest
  | cons c w ih =>
    rw [List.all_cons, Bool.and_eq_true] at h
    rw [List.cons_append, dropLinePads, ih h.2]
    simp [h.1]

theorem not_mem_rdropWhile (h : '\n' ∉ l) : '\n' ∉ l.rdropWhile isPad := fun hmem =>
  h ((List.rdropWhile_prefix _ _).subset hmem)

theorem all_rdropWhile_isPad (l : List Char) : (l.rdropWhile isPad).all isSpace = l.all isSpace := by
  have hpads : (l.rtakeWhile isPad).all isSpace = true :=
    List.all_eq_true.mpr fun c hc => isSpace_of_isPad (List.mem_rtakeWhile_imp hc)
  conv_rhs => rw [← List.rdropWhile_append_rtakeWhile (p := isPad) (l := l), List.all_append, hpads]
  exact (Bool.and_true _).symm

theorem dropLinePads_newline (h : '\n' ∉ l) (rest : List Char) :
    dropLinePads (l ++ '\n' :: rest) = l.rdropWhile isPad ++ '\n' :: dropLinePads rest := by
  have hsplit := List.rdropWhile_append_rtakeWhile (p := isPad) (l := l)
  have hpads : (l.rtakeWhile isPad).all isPad = true :=
    List.all_eq_true.mpr fun c hc => List.mem_rtakeWhile_imp hc
  by_cases hnil : l.rdropWhile isPad = []
  · rw [hnil, List.nil_append] at hsplit
    rw [hnil, List.nil_append, ← hsplit, dropLinePads_pads hpads]
  · obtain ⟨init, c, hinit⟩ : ∃ init c, l.rdropWhile isPad = init ++ [c] :=
      ⟨_, _, (List.dropLast_append_getLast hnil).symm⟩
    have hc : isPad c = false := by
      have hlast := List.rdropWhile_last_not isPad l hnil
      simpa only [hinit, List.getLast_append_singleton, Bool.not_eq_true] using hlast
    have hnew : '\n' ∉ init ++ [c] := fun hmem => h (hsplit ▸ List.mem_append_left _ (hinit ▸ hmem))
    rw [List.mem_append, List.mem_singleton, not_or] at hnew
    conv_lhs => rw [← hsplit, hinit]
    rw [List.append_assoc, List.append_assoc, List.singleton_append,
      dropLinePads_append hc (Ne.symm hnew.2), dropLinePads_pads hpads,
      dropLinePads_of_not_mem hnew.1, hinit, List.append_assoc, List.singleton_append]

theorem Solid.dropLinePads (h : Solid core) : Solid (dropLinePads core) := by
  obtain ⟨⟨c, rest, hfirst, hc⟩, ⟨init, d, hlast, hd⟩⟩ := h
  refine ⟨⟨c, Text.dropLinePads rest, ?_, hc⟩, ⟨Text.dropLinePads init, d, ?_, hd⟩⟩
  · rw [hfirst, dropLinePads_cons (isPad_of_isSpace_eq_false hc)]
  · rw [hlast, dropLinePads_append (isPad_of_isSpace_eq_false hd) (ne_newline_of_isSpace_eq_false hd)]
    rfl

theorem Solid.dropLinePads_append (h : Solid core) (lead trail : List Char) :
    Text.dropLinePads (lead ++ core ++ trail) =
      Text.dropLinePads lead ++ Text.dropLinePads core ++ Text.dropLinePads trail := by
  obtain ⟨⟨c, rest, hfirst, hc⟩, ⟨init, d, hlast, hd⟩⟩ := h
  have hsplit : ∀ {c}, isSpace c = false → ∀ cs ds, Text.dropLinePads (cs ++ c :: ds) =
      Text.dropLinePads cs ++ c :: Text.dropLinePads ds := fun hc =>
    Text.dropLinePads_append (isPad_of_isSpace_eq_false hc) (ne_newline_of_isSpace_eq_false hc)
  have hbehind : Text.dropLinePads (core ++ trail) =
      Text.dropLinePads core ++ Text.dropLinePads trail := by
    rw [hlast, List.append_assoc, List.singleton_append, hsplit hd, hsplit hd]
    simp [Text.dropLinePads]
  have hbefore : Text.dropLinePads (lead ++ (core ++ trail)) =
      Text.dropLinePads lead ++ Text.dropLinePads (core ++ trail) := by
    rw [hfirst, List.cons_append, hsplit hc, dropLinePads_cons (isPad_of_isSpace_eq_false hc)]
  rw [List.append_assoc, hbefore, hbehind, List.append_assoc]

theorem dropLinePads_dropLinePads (cs : List Char) :
    dropLinePads (dropLinePads cs) = dropLinePads cs := by
  induction cs using lines_induction with
  | nil => rfl
  | last l hne hl => rw [dropLinePads_of_not_mem hl, dropLinePads_of_not_mem hl]
  | line l rest hl ih =>
    rw [dropLinePads_newline hl, dropLinePads_newline (not_mem_rdropWhile hl), List.rdropWhile_idempotent, ih]

/-! ### The passes together -/

/-- What `finish` makes of the characters of a text. -/
def layOut (cs : List Char) : List Char := dropLinePads (dropTrailingBlank (dropLeadingBlank cs))

theorem toList_finish (code : String) : (finish code).toList = layOut code.toList :=
  String.toList_ofList

/-- The white space that the first pass leaves before a text. -/
theorem dropLeadingBlank_blank (h : lead.all isSpace = true) :
    (dropLeadingBlank lead).all isSpace = true ∧ '\n' ∉ (dropLeadingBlank lead).tail := by
  rcases leading_cases lead with hn | ⟨before, after, hne, rfl, hn⟩
  · rw [dropLeadingBlank_self h hn]
    exact ⟨h, hn⟩
  · rw [dropLeadingBlank_newline h hne hn]
    exact ⟨(all_newline_iff.mp h).2, fun hmem => hn (List.mem_of_mem_tail hmem)⟩

/-- The white space that the other two leave behind a text. -/
theorem closing_cases (h : trail.all isSpace = true) :
    '\n' ∉ trail ∧ dropLinePads (dropTrailingBlank trail) = trail ∨
    ∃ before after, trail = before ++ '\n' :: after ∧ '\n' ∉ before ∧
      dropLinePads (dropTrailingBlank trail) = before.rdropWhile isPad ++ ['\n'] := by
  by_cases hmem : '\n' ∈ trail
  · obtain ⟨before, after, rfl, hn⟩ := List.eq_append_cons_of_mem hmem
    refine .inr ⟨before, after, rfl, hn, ?_⟩
    rw [dropTrailingBlank_newline h hn, dropLinePads_newline hn]
    rfl
  · exact .inl ⟨hmem, by rw [dropTrailingBlank_self hmem, dropLinePads_of_not_mem hmem]⟩

theorem closing_closed (h : trail.all isSpace = true) :
    (dropLinePads (dropTrailingBlank trail)).all isSpace = true ∧
      dropLinePads (dropTrailingBlank (dropLinePads (dropTrailingBlank trail))) =
        dropLinePads (dropTrailingBlank trail) := by
  rcases closing_cases h with ⟨-, hself⟩ | ⟨before, after, rfl, hn, hclose⟩
  · rw [hself]
    exact ⟨h, hself⟩
  · have hn' := not_mem_rdropWhile hn
    have hblank : (before.rdropWhile isPad ++ ['\n']).all isSpace = true :=
      all_newline_iff.mpr ⟨(all_rdropWhile_isPad before).trans (all_newline_iff.mp h).1, rfl⟩
    rw [hclose, dropTrailingBlank_newline hblank hn', dropLinePads_newline hn',
      List.rdropWhile_idempotent]
    exact ⟨hblank, rfl⟩

theorem dropBlanks_framed (hlead : lead.all isSpace = true) (hcore : Solid core)
    (htrail : trail.all isSpace = true) :
    dropTrailingBlank (dropLeadingBlank (lead ++ core ++ trail)) =
      dropLeadingBlank lead ++ core ++ dropTrailingBlank trail := by
  have hfirst : dropLeadingBlank (lead ++ core ++ trail) = dropLeadingBlank lead ++ core ++ trail := by
    obtain ⟨c, rest, rfl, hc⟩ := hcore.first
    simp only [List.append_assoc, List.cons_append, dropLeadingBlank_append hlead hc]
  obtain ⟨init, c, rfl, hc⟩ := hcore.last
  have hsecond : dropTrailingBlank ((dropLeadingBlank lead ++ init) ++ c :: trail) =
      (dropLeadingBlank lead ++ init) ++ c :: dropTrailingBlank trail :=
    dropTrailingBlank_append hc htrail
  rw [hfirst]
  simpa only [List.append_assoc, List.singleton_append] using hsecond

/-- The passes keep to their places. -/
theorem layOut_framed (hlead : lead.all isSpace = true) (hcore : Solid core)
    (htrail : trail.all isSpace = true) : layOut (lead ++ core ++ trail) =
      dropLeadingBlank lead ++ dropLinePads core ++ dropLinePads (dropTrailingBlank trail) := by
  rw [layOut, dropBlanks_framed hlead hcore htrail, hcore.dropLinePads_append,
    dropLinePads_of_not_mem_tail (dropLeadingBlank_blank hlead).2]

theorem layOut_of_not_mem (h : cs.all isSpace = true) (hn : '\n' ∉ cs) : layOut cs = cs := by
  rw [layOut, dropLeadingBlank_self h fun hmem => hn (List.mem_of_mem_tail hmem),
    dropTrailingBlank_self hn, dropLinePads_of_not_mem hn]

/-- Of blank lines one empty line is left, or what stands behind the last line feed. -/
theorem layOut_blank (h : cs.all isSpace = true) :
    '\n' ∉ cs ∧ layOut cs = cs ∨ (cs.head? = some '\n' ∧ '\n' ∉ cs.tail) ∧ layOut cs = ['\n'] ∨
    ∃ before after, before ≠ [] ∧ cs = before ++ '\n' :: after ∧ '\n' ∉ after ∧
      layOut cs = after := by
  rcases leading_cases cs with hn | ⟨before, after, hne, rfl, hn⟩
  · cases cs with
    | nil => exact .inl ⟨List.not_mem_nil, rfl⟩
    | cons c cs =>
      by_cases hc : c = '\n'
      · subst hc
        have hlast : dropTrailingBlank ([] ++ '\n' :: cs) = [] ++ ['\n'] :=
          dropTrailingBlank_newline h List.not_mem_nil
        refine .inr (.inl ⟨⟨rfl, hn⟩, ?_⟩)
        rw [layOut, dropLeadingBlank_self h hn, ← List.nil_append ('\n' :: cs), hlast]
        rfl
      · have hmem : '\n' ∉ c :: cs := List.not_mem_cons_of_ne_of_not_mem (Ne.symm hc) hn
        exact .inl ⟨hmem, layOut_of_not_mem h hmem⟩
  · refine .inr (.inr ⟨before, after, hne, rfl, hn, ?_⟩)
    rw [layOut, dropLeadingBlank_newline h hne hn, dropTrailingBlank_self hn,
      dropLinePads_of_not_mem hn]

theorem layOut_all (h : cs.all isSpace = true) : (layOut cs).all isSpace = true := by
  rcases layOut_blank h with ⟨-, hself⟩ | ⟨-, hline⟩ | ⟨before, after, -, rfl, -, hafter⟩
  · rwa [hself]
  · rw [hline]
    rfl
  · rw [hafter]
    exact (all_newline_iff.mp h).2

theorem layOut_layOut (cs : List Char) : layOut (layOut cs) = layOut cs := by
  rcases blank_or_framed cs with h | ⟨lead, core, trail, rfl, hlead, hcore, htrail⟩
  · rcases layOut_blank h with ⟨-, hself⟩ | ⟨-, hline⟩ | ⟨before, after, -, rfl, hn, hafter⟩
    · rw [hself, hself]
    · rw [hline]
      rfl
    · rw [hafter, layOut_of_not_mem (all_newline_iff.mp h).2 hn]
  · obtain ⟨hblank, hn⟩ := dropLeadingBlank_blank hlead
    obtain ⟨hclosing, hclosed⟩ := closing_closed htrail
    rw [layOut_framed hlead hcore htrail, layOut_framed hblank hcore.dropLinePads hclosing,
      dropLeadingBlank_self hblank hn, dropLinePads_dropLinePads, hclosed]

/-! ### Lines of code -/

/-- The lines of a text that are not blank, without the spaces and tabs at their ends. -/
def codeLines (cs : List Char) : List (List Char) :=
  ((cs.splitOn '\n').filter fun l => !l.all isSpace).map fun l => l.rdropWhile isPad

theorem codeLines_newline (cs ds : List Char) :
    codeLines (cs ++ '\n' :: ds) = codeLines cs ++ codeLines ds := by
  have hsplit : (cs ++ '\n' :: ds).splitOn '\n' = cs.splitOn '\n' ++ ds.splitOn '\n' :=
    List.splitOnP_append_cons cs ds rfl
  simp only [codeLines, hsplit, List.filter_append, List.map_append]

theorem splitOn_of_not_mem (h : '\n' ∉ l) : l.splitOn '\n' = [l] := by
  refine List.splitOnP_eq_singleton fun c hc => beq_eq_false_iff_ne.mpr ?_
  rintro rfl
  exact h hc

theorem codeLines_of_not_mem (h : '\n' ∉ l) :
    codeLines l = if l.all isSpace then [] else [l.rdropWhile isPad] := by
  rw [codeLines, splitOn_of_not_mem h]
  cases hblank : l.all isSpace <;> simp [hblank]

theorem codeLines_blank (h : cs.all isSpace = true) : codeLines cs = [] := by
  induction cs using lines_induction with
  | nil => rfl
  | last l hne hl => rw [codeLines_of_not_mem hl, if_pos h]
  | line l rest hl ih =>
    obtain ⟨hblank, hrest⟩ := all_newline_iff.mp h
    rw [codeLines_newline, codeLines_of_not_mem hl, if_pos hblank, ih hrest, List.append_nil]

theorem codeLines_dropLinePads (cs : List Char) : codeLines (dropLinePads cs) = codeLines cs := by
  induction cs using lines_induction with
  | nil => rfl
  | last l hne hl => rw [dropLinePads_of_not_mem hl]
  | line l rest hl ih =>
    rw [dropLinePads_newline hl, codeLines_newline, codeLines_newline, ih,
      codeLines_of_not_mem (not_mem_rdropWhile hl), codeLines_of_not_mem hl, all_rdropWhile_isPad,
      List.rdropWhile_idempotent]

theorem codeLines_dropLeadingBlank (hlead : lead.all isSpace = true) (rest : List Char) :
    codeLines (dropLeadingBlank lead ++ rest) = codeLines (lead ++ rest) := by
  rcases leading_cases lead with hn | ⟨before, after, hne, rfl, hn⟩
  · rw [dropLeadingBlank_self hlead hn]
  · rw [dropLeadingBlank_newline hlead hne hn, List.append_assoc, List.cons_append,
      codeLines_newline, codeLines_blank (all_newline_iff.mp hlead).1, List.nil_append]

theorem codeLines_dropTrailingBlank (htrail : trail.all isSpace = true) (code : List Char) :
    codeLines (code ++ dropTrailingBlank trail) = codeLines (code ++ trail) := by
  by_cases hmem : '\n' ∈ trail
  · obtain ⟨before, after, rfl, hn⟩ := List.eq_append_cons_of_mem hmem
    rw [dropTrailingBlank_newline htrail hn, ← List.append_assoc, ← List.append_assoc,
      codeLines_newline, codeLines_newline, codeLines_blank (all_newline_iff.mp htrail).2]
    rfl
  · rw [dropTrailingBlank_self hmem]

theorem codeLines_layOut (cs : List Char) : codeLines (layOut cs) = codeLines cs := by
  rcases blank_or_framed cs with h | ⟨lead, core, trail, rfl, hlead, hcore, htrail⟩
  · rw [codeLines_blank (layOut_all h), codeLines_blank h]
  · rw [layOut, codeLines_dropLinePads, dropBlanks_framed hlead hcore htrail,
      codeLines_dropTrailingBlank htrail, List.append_assoc, codeLines_dropLeadingBlank hlead,
      List.append_assoc]

/-- A finished text stays as it is, and a text has the same lines of code before and after, with all
their indentation. -/
theorem finish_stable_lossless (code : String) :
    finish (finish code) = finish code ∧ codeLines (finish code).toList = codeLines code.toList := by
  constructor
  · apply String.toList_injective
    rw [toList_finish, toList_finish, layOut_layOut]
  · rw [toList_finish, codeLines_layOut]

end Blockwright.Text
