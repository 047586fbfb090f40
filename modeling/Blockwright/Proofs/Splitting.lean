import Blockwright.Arguments
import Mathlib.Data.List.DropRight

/-!
# Cutting argument lists up and putting them together

`Scan.Free` says that a text has no outer comma, and `Scan.Cut` that a list of texts is what is left
between the outer commas of one text, with the scan at its end. Every text is cut up so
(`Scan.cut_cut`), and texts that stand to each other like this come back when they are put together
with commas (`split_compact`). White space around a piece does not change what a scan makes of the
pieces behind it, since the scan has closed everything at an outer comma (`Scan.Cut.trim`).

The values of parameters are pieces too, but for the last one, which may hold several; `unfolded`
lists them one by one. Main statements: `split_compact_inverse`, and `expand_compact_stable`, by which
values do not change however often they are written as one text and read again.
-/

namespace Blockwright

/-! ### Trimmed texts -/

namespace Text

variable {c : Char} {cs : List Char}

theorem trimChars_eq (cs : List Char) :
    trimChars cs = (cs.dropWhile isSpace).rdropWhile isSpace := rfl

theorem trimChars_cons_of_isSpace (h : isSpace c = true) (cs : List Char) :
    trimChars (c :: cs) = trimChars cs := by
  rw [trimChars, List.dropWhile_cons_of_pos h]
  rfl

theorem trimChars_eq_nil_iff : trimChars cs = [] ↔ cs.all isSpace = true := by
  rw [trimChars_eq, List.rdropWhile_eq_nil_iff, List.all_eq_true]
  constructor
  · intro h c hc
    rw [← List.takeWhile_append_dropWhile (p := isSpace) (l := cs)] at hc
    rcases List.mem_append.mp hc with hc | hc
    · exact List.mem_takeWhile_imp hc
    · exact h c hc
  · exact fun h c hc => h c ((List.dropWhile_suffix _).subset hc)

theorem exists_trimChars (cs : List Char) : ∃ before after, cs = before ++ trimChars cs ++ after ∧
    (∀ c ∈ before, isSpace c = true) ∧ ∀ c ∈ after, isSpace c = true := by
  refine ⟨cs.takeWhile isSpace, (cs.dropWhile isSpace).rtakeWhile isSpace, ?_, ?_, ?_⟩
  · rw [trimChars_eq, List.append_assoc, List.rdropWhile_append_rtakeWhile,
      List.takeWhile_append_dropWhile]
  · exact fun c hc => List.mem_takeWhile_imp hc
  · exact fun c hc => List.mem_rtakeWhile_imp hc

theorem trimChars_trimChars (cs : List Char) : trimChars (trimChars cs) = trimChars cs := by
  have hhead : (trimChars cs).dropWhile isSpace = trimChars cs := by
    have hlead : trimChars cs <+: cs.dropWhile isSpace := List.rdropWhile_prefix ..
    rw [List.dropWhile_eq_self_iff]
    intro hlength
    rw [hlead.getElem hlength]
    exact List.dropWhile_get_zero_not isSpace cs _
  rw [trimChars_eq (trimChars cs), hhead, trimChars_eq, List.rdropWhile_idempotent]

theorem isBlank_eq_false_of_mem {text : String} (hc : c ∈ text.toList) (h : isSpace c = false) :
    isBlank text = false := by
  rw [isBlank, List.all_eq_false]
  exact ⟨c, hc, by simp [h]⟩

end Text

namespace Arguments

open Text

namespace Scan

variable {s e : Scan} {c : Char} {cs ds p : List Char} {ps : List (List Char)}

/-! ### Scans -/

@[simp] theorem run_nil (s : Scan) : s.run [] = s := rfl

theorem run_cons (s : Scan) (c : Char) (cs : List Char) : s.run (c :: cs) = (s.step c).run cs := rfl

theorem run_append (s : Scan) (cs ds : List Char) : s.run (cs ++ ds) = (s.run cs).run ds :=
  List.foldl_append ..

/-- Quotes and brackets: outside of string literals nothing else changes a scan. -/
def isMark (c : Char) : Bool :=
  c == '\'' || c == '"' || c == '(' || c == '[' || c == '{' || c == ')' || c == ']' || c == '}'

theorem step_of_not_isMark (hquote : s.quote = none) (hc : isMark c = false) : s.step c = s := by
  simp only [isMark, Bool.or_eq_false_iff, beq_eq_false_iff_ne] at hc
  simp [step, hquote, hc]

theorem isMark_of_isSpace (h : isSpace c = true) : isMark c = false := by
  by_contra hmark
  simp only [isMark, Bool.not_eq_false, Bool.or_eq_true, beq_iff_eq] at hmark
  rcases hmark with ((((((rfl | rfl) | rfl) | rfl) | rfl) | rfl) | rfl) | rfl <;> cases h

theorem run_of_not_isMark (hquote : s.quote = none) (hcs : ∀ c ∈ cs, isMark c = false) :
    s.run cs = s := by
  induction cs with
  | nil => rfl
  | cons c cs ih =>
    rw [run_cons, step_of_not_isMark hquote (hcs c List.mem_cons_self)]
    exact ih fun d hd => hcs d (List.mem_cons_of_mem _ hd)

theorem run_of_isSpace (hcs : ∀ c ∈ cs, isSpace c = true) : run {} cs = {} :=
  run_of_not_isMark rfl fun c hc => isMark_of_isSpace (hcs c hc)

/-- What is true of every scan that began outside of a string literal. -/
structure Sound (s : Scan) : Prop where
  quote : ∀ q, s.quote = some q → q = '\'' ∨ q = '"'
  escaped : s.quote = none → s.escaped = false

theorem sound_start : Sound {} := ⟨nofun, fun _ => rfl⟩

theorem Sound.step (h : s.Sound) (c : Char) : (s.step c).Sound := by
  obtain ⟨depth, quote, escaped⟩ := s
  cases quote with
  | none =>
    unfold Scan.step
    dsimp only
    split_ifs with hquote
    · refine ⟨fun q hq => ?_, nofun⟩
      cases hq
      exact hquote
    all_goals exact ⟨h.quote, h.escaped⟩
  | some q =>
    unfold Scan.step
    dsimp only
    split_ifs with hescaped hslash hend
    · exact ⟨h.quote, nofun⟩
    · exact ⟨h.quote, nofun⟩
    · exact ⟨nofun, fun _ => by simpa using hescaped⟩
    · exact h

theorem Sound.run (h : s.Sound) (cs : List Char) : (s.run cs).Sound := by
  induction cs generalizing s with
  | nil => exact h
  | cons c cs ih => exact ih (h.step c)

theorem Sound.eq_start (h : s.Sound) (hclosed : s.isClosed = true) : s = {} := by
  obtain ⟨depth, quote, escaped⟩ := s
  simp only [isClosed, Bool.and_eq_true, beq_iff_eq, Option.isNone_iff_eq_none] at hclosed
  obtain ⟨rfl, rfl⟩ := hclosed
  cases h.escaped rfl
  rfl

theorem quote_of_isClosed (h : s.isClosed = true) : s.quote = none := by
  simp only [isClosed, Bool.and_eq_true, Option.isNone_iff_eq_none] at h
  exact h.2

/-- White space closes nothing. -/
theorem Sound.isClosed_of_step (h : s.Sound) (hc : isSpace c = true)
    (hclosed : (s.step c).isClosed = true) : s.isClosed = true := by
  cases hquote : s.quote with
  | none => rwa [step_of_not_isMark hquote (isMark_of_isSpace hc)] at hclosed
  | some q =>
    have hend : c ≠ q := by
      rintro rfl
      rcases h.quote c hquote with rfl | rfl <;> cases hc
    have hopen := quote_of_isClosed hclosed
    unfold Scan.step at hopen
    rw [hquote] at hopen
    dsimp only at hopen
    split_ifs at hopen with hescaped hslash
    all_goals simp [hquote] at hopen

theorem Sound.isClosed_of_run (h : s.Sound) (hcs : ∀ c ∈ cs, isSpace c = true)
    (hclosed : (s.run cs).isClosed = true) : s.isClosed = true := by
  induction cs generalizing s with
  | nil => exact hclosed
  | cons c cs ih =>
    have hstep := ih (h.step c) (fun d hd => hcs d (List.mem_cons_of_mem _ hd)) hclosed
    exact h.isClosed_of_step (hcs c List.mem_cons_self) hstep

/-! ### Outer commas -/

/-- There is no comma outside brackets and string literals. -/
def Free (s : Scan) (cs : List Char) : Prop :=
  ∀ before after, cs = before ++ ',' :: after → (s.run before).isClosed = false

theorem isOuterComma_iff : s.isOuterComma c = true ↔ c = ',' ∧ s.isClosed = true := by
  simp [isOuterComma, isClosed, and_assoc]

theorem free_nil (s : Scan) : s.Free [] := by
  intro before after h
  simp at h

theorem free_cons_iff : s.Free (c :: cs) ↔ s.isOuterComma c = false ∧ (s.step c).Free cs := by
  constructor
  · intro h
    refine ⟨?_, fun before after hcs => h (c :: before) after (by rw [hcs]; rfl)⟩
    by_contra houter
    obtain ⟨rfl, hclosed⟩ := isOuterComma_iff.mp (by simpa using houter)
    have hnot : s.isClosed = false := h [] cs rfl
    rw [hnot] at hclosed
    cases hclosed
  · rintro ⟨houter, hrest⟩ before after hcs
    cases before with
    | nil =>
      cases hcs
      by_contra hclosed
      rw [isOuterComma_iff.mpr ⟨rfl, by simpa using hclosed⟩] at houter
      cases houter
    | cons d before =>
      cases hcs
      exact hrest before after rfl

theorem Free.of_append (h : s.Free (cs ++ ds)) : s.Free cs := by
  intro before after hcs
  exact h before (after ++ ds) (by rw [hcs, List.append_assoc, List.cons_append])

theorem Free.of_append_right (h : s.Free (cs ++ ds)) : (s.run cs).Free ds := by
  intro before after hds
  rw [← run_append]
  exact h (cs ++ before) after (by rw [hds, List.append_assoc])

theorem free_of_not_mem (h : ',' ∉ cs) : s.Free cs := by
  rintro before after rfl
  simp at h

/-! ### Cut texts -/

/-- The texts stand between the outer commas of one text; the last scan is the one at its end. -/
inductive Cut : Scan → List (List Char) → Scan → Prop
  | last {s : Scan} {p : List Char} (hfree : s.Free p) : Cut s [p] (s.run p)
  | cons {s e : Scan} {p : List Char} {ps : List (List Char)} (hfree : s.Free p)
      (hclosed : (s.run p).isClosed = true) (hrest : Cut (s.run p) ps e) : Cut s (p :: ps) e

theorem cut_cut (s : Scan) (cs : List Char) : Cut s (cut s cs) (s.run cs) := by
  induction cs generalizing s with
  | nil => exact .last s.free_nil
  | cons c cs ih =>
    rw [cut]
    split
    · next houter =>
      obtain ⟨rfl, hclosed⟩ := isOuterComma_iff.mp houter
      rw [run_cons, step_of_not_isMark (quote_of_isClosed hclosed) rfl]
      exact .cons s.free_nil hclosed (ih s)
    · next houter =>
      have hcut := ih (s.step c)
      rw [run_cons]
      generalize (s.step c).run cs = e at hcut
      -- the first piece grows by a character, the others are as they were
      cases hps : cut (s.step c) cs with
      | nil => rw [hps] at hcut; cases hcut
      | cons p ps =>
        rw [hps] at hcut
        have hgrow : (s.step c).Free p → s.Free (c :: p) := fun hfree =>
          free_cons_iff.mpr ⟨by simpa using houter, hfree⟩
        cases hcut with
        | last hfree => exact .last (p := c :: p) (hgrow hfree)
        | cons hfree hclosed hrest => exact .cons (hgrow hfree) hclosed hrest

theorem cut_ne_nil (s : Scan) (cs : List Char) : cut s cs ≠ [] := by
  intro h
  have hcut := cut_cut s cs
  rw [h] at hcut
  cases hcut

/-- Cutting loses nothing but the commas. -/
theorem intercalate_cut (s : Scan) (cs : List Char) : [','].intercalate (cut s cs) = cs := by
  induction cs generalizing s with
  | nil => rfl
  | cons c cs ih =>
    rw [cut]
    split
    · next houter =>
      obtain ⟨rfl, -⟩ := isOuterComma_iff.mp houter
      rw [List.intercalate_cons_of_ne_nil (cut_ne_nil s cs), ih s]
      rfl
    · have hcut := ih (s.step c)
      cases hps : cut (s.step c) cs with
      | nil => exact absurd hps (cut_ne_nil (s.step c) cs)
      | cons p ps =>
        rw [hps] at hcut
        rw [← hcut]
        cases ps with
        | nil => simp
        | cons q ps => simp [List.intercalate_cons_cons]

theorem cut_of_free (h : s.Free p) : cut s p = [p] := by
  induction p generalizing s with
  | nil => rfl
  | cons c p ih =>
    obtain ⟨houter, hrest⟩ := free_cons_iff.mp h
    rw [cut, houter, ih hrest]
    rfl

theorem free_of_cut (h : cut s p = [p]) : s.Free p := by
  have hcut := cut_cut s p
  rw [h] at hcut
  generalize s.run p = e at hcut
  cases hcut with
  | last hfree => exact hfree
  | cons _ _ hrest => cases hrest

theorem cut_append_comma (h : s.Free p) (hclosed : (s.run p).isClosed = true) (cs : List Char) :
    cut s (p ++ ',' :: cs) = p :: cut (s.run p) cs := by
  induction p generalizing s with
  | nil =>
    rw [run_nil] at hclosed
    rw [List.nil_append, cut, if_pos (isOuterComma_iff.mpr ⟨rfl, hclosed⟩), run_nil]
  | cons c p ih =>
    obtain ⟨houter, hrest⟩ := free_cons_iff.mp h
    rw [List.cons_append, cut, houter, ih hrest hclosed]
    rfl

theorem cut_space (hquote : s.quote = none) (cs : List Char) :
    (cut s (' ' :: cs)).map trimChars = (cut s cs).map trimChars := by
  have houter : s.isOuterComma ' ' = false := rfl
  rw [cut, houter, step_of_not_isMark hquote rfl]
  cases hps : cut s cs with
  | nil => exact absurd hps (cut_ne_nil s cs)
  | cons p ps =>
    show (trimChars (' ' :: p)) :: _ = _
    rw [trimChars_cons_of_isSpace rfl]
    rfl

theorem Cut.forall_mem (h : Cut s ps e) (hs : s = {}) (he : e.isClosed = true) :
    ∀ p ∈ ps, Free {} p ∧ (run {} p).isClosed = true := by
  induction h with
  | last hfree =>
    subst hs
    simpa using ⟨hfree, he⟩
  | cons hfree hclosed hrest ih =>
    subst hs
    have hrun := (sound_start.run _).eq_start hclosed
    exact List.forall_mem_cons.mpr ⟨⟨hfree, hclosed⟩, ih hrun he⟩

theorem cut_of_forall_mem (hne : ps ≠ [])
    (h : ∀ p ∈ ps, Free {} p ∧ (run {} p).isClosed = true) : ∃ e, Cut {} ps e := by
  induction ps with
  | nil => exact absurd rfl hne
  | cons p ps ih =>
    obtain ⟨⟨hfree, hclosed⟩, hrest⟩ := List.forall_mem_cons.mp h
    cases ps with
    | nil => exact ⟨_, .last hfree⟩
    | cons q ps =>
      obtain ⟨e, hcut⟩ := ih (List.cons_ne_nil q ps) hrest
      rw [← (sound_start.run p).eq_start hclosed] at hcut
      exact ⟨e, .cons hfree hclosed hcut⟩

theorem run_trimChars (cs : List Char) :
    ∃ after, run {} cs = (run {} (trimChars cs)).run after ∧ ∀ c ∈ after, isSpace c = true := by
  obtain ⟨before, after, hcs, hbefore, hafter⟩ := exists_trimChars cs
  refine ⟨after, ?_, hafter⟩
  conv_lhs => rw [hcs, run_append, run_append, run_of_isSpace hbefore]

theorem Free.trim (h : Free {} p) : Free {} (trimChars p) := by
  obtain ⟨before, after, hp, hbefore, -⟩ := exists_trimChars p
  rw [hp] at h
  rw [← run_of_isSpace hbefore]
  exact h.of_append.of_append_right

/-- Without the white space around them the texts stand between commas as before. -/
theorem Cut.trim (h : Cut s ps e) (hs : s = {}) : ∃ e, Cut {} (ps.map trimChars) e := by
  induction h with
  | last hfree =>
    subst hs
    exact ⟨_, .last hfree.trim⟩
  | @cons s e p ps hfree hclosed hrest ih =>
    subst hs
    obtain ⟨e', hcut⟩ := ih ((sound_start.run p).eq_start hclosed)
    obtain ⟨after, hrun, hafter⟩ := run_trimChars p
    have hsound : (run {} (trimChars p)).Sound := sound_start.run _
    have htrimmed := hsound.isClosed_of_run hafter (hrun ▸ hclosed)
    rw [← hsound.eq_start htrimmed] at hcut
    exact ⟨e', .cons hfree.trim htrimmed hcut⟩

end Scan

open Scan

variable {p q text : String} {ps params pieces : List String} {e : Scan}

/-! ### Splitting and joining -/

/-- A text that is one argument wherever it stands in a list. -/
structure IsPiece (p : String) : Prop where
  nonempty : p ≠ ""
  trimmed : trim p = p
  closed : (run {} p.toList).isClosed = true
  whole : Free {} p.toList

instance (p : String) : Decidable (IsPiece p) :=
  decidable_of_iff (p ≠ "" ∧ trim p = p ∧ (run {} p.toList).isClosed = true ∧
      cut {} p.toList = [p.toList])
    ⟨fun h => ⟨h.1, h.2.1, h.2.2.1, free_of_cut h.2.2.2⟩,
      fun h => ⟨h.nonempty, h.trimmed, h.closed, cut_of_free h.whole⟩⟩

theorem isBlank_eq_false_of_trimmed (htrim : trim p = p) (hne : p ≠ "") : isBlank p = false := by
  by_contra hblank
  refine hne ?_
  rw [← htrim, trim, trimChars_eq_nil_iff.mpr (by simpa [isBlank] using hblank)]

theorem toList_compact_cons_cons (p q : String) (ps : List String) :
    (compact (p :: q :: ps)).toList = p.toList ++ ',' :: ' ' :: (compact (q :: ps)).toList := by
  rw [compact, joinWith_cons_cons, String.toList_append, String.toList_append, List.append_assoc]
  rfl

theorem mem_toList_compact {c : Char} (hp : p ∈ ps) (hc : c ∈ p.toList) :
    c ∈ (compact ps).toList := by
  induction ps with
  | nil => cases hp
  | cons q ps ih =>
    cases ps with
    | nil => rwa [List.mem_singleton.mp hp] at hc
    | cons r ps =>
      rw [toList_compact_cons_cons, List.mem_append]
      rcases List.mem_cons.mp hp with rfl | hp
      · exact .inl hc
      · exact .inr (List.mem_cons_of_mem _ (List.mem_cons_of_mem _ (ih hp)))

theorem isBlank_compact (hp : p ∈ ps) (h : isBlank p = false) : isBlank (compact ps) = false := by
  obtain ⟨c, hc, hspace⟩ := List.all_eq_false.mp h
  exact isBlank_eq_false_of_mem (mem_toList_compact hp hc) (by simpa using hspace)

theorem trim_cut_compact {s : Scan} (h : Cut s (ps.map String.toList) e) (hs : s = {}) :
    (cut s (compact ps).toList).map trimChars = ps.map fun p => trimChars p.toList := by
  induction ps generalizing s with
  | nil => cases h
  | cons p ps ih =>
    cases ps with
    | nil =>
      cases h with
      | last hfree => rw [compact, joinWith_singleton, cut_of_free hfree]; rfl
      | cons _ _ hrest => cases hrest
    | cons q ps =>
      cases h with
      | cons hfree hclosed hrest =>
        subst hs
        rw [toList_compact_cons_cons, cut_append_comma hfree hclosed, List.map_cons,
          cut_space (quote_of_isClosed hclosed), ih hrest ((sound_start.run _).eq_start hclosed)]
        rfl

theorem split_of_isBlank (h : isBlank text = true) : split text = [] := by rw [split, if_pos h]

theorem split_eq (h : isBlank text = false) :
    split text = ((cut {} text.toList).map trimChars).map String.ofList := by
  rw [split, h, List.map_map]
  rfl

/-- Trimmed texts that stand between the commas of one text come back from it. -/
theorem split_compact (hblank : isBlank (compact ps) = false) (hcut : Cut {} (ps.map String.toList) e)
    (htrim : ∀ p ∈ ps, trim p = p) : split (compact ps) = ps := by
  rw [split_eq hblank, trim_cut_compact hcut rfl, List.map_map]
  exact (List.map_congr_left htrim).trans (List.map_id' ps)

theorem split_compact_of_isPiece (hne : ps ≠ []) (h : ∀ p ∈ ps, IsPiece p) :
    split (compact ps) = ps := by
  obtain ⟨p, hp⟩ := List.exists_mem_of_ne_nil ps hne
  have hblank := isBlank_eq_false_of_trimmed (h p hp).trimmed (h p hp).nonempty
  have hpieces : ∀ cs ∈ ps.map String.toList, Free {} cs ∧ (run {} cs).isClosed = true := by
    intro cs hcs
    obtain ⟨q, hq, rfl⟩ := List.mem_map.mp hcs
    exact ⟨(h q hq).whole, (h q hq).closed⟩
  obtain ⟨e, hcut⟩ := cut_of_forall_mem (by simpa using hne) hpieces
  exact split_compact (isBlank_compact hp hblank) hcut fun q hq => (h q hq).trimmed

theorem trim_of_mem_split (hp : p ∈ split text) : trim p = p := by
  cases hblank : isBlank text with
  | true => rw [split_of_isBlank hblank] at hp; cases hp
  | false =>
    rw [split_eq hblank, List.map_map] at hp
    obtain ⟨cs, -, rfl⟩ := List.mem_map.mp hp
    rw [trim, Function.comp_apply, String.toList_ofList, trimChars_trimChars]

theorem toList_split (h : isBlank text = false) :
    (split text).map String.toList = (cut {} text.toList).map trimChars := by
  rw [split_eq h, List.map_map, List.map_map]
  exact List.map_congr_left fun cs _ => String.toList_ofList

theorem isBlank_compact_split (h : isBlank text = false) :
    isBlank (compact (split text)) = false := by
  cases hps : split text with
  | nil =>
    rw [split_eq h, List.map_map, List.map_eq_nil_iff] at hps
    exact absurd hps (cut_ne_nil {} text.toList)
  | cons p ps =>
    cases ps with
    | nil =>
      -- a single piece is the whole text, trimmed
      have hcut := (toList_split h).symm
      rw [hps] at hcut
      obtain ⟨cs, hcs, htrim⟩ := List.map_eq_singleton_iff.mp hcut
      have hall := intercalate_cut {} text.toList
      rw [hcs, List.intercalate_singleton] at hall
      rw [compact, joinWith_singleton]
      refine isBlank_eq_false_of_trimmed (trim_of_mem_split (hps ▸ List.mem_singleton_self p)) ?_
      rintro rfl
      have hblank : isBlank text = true := trimChars_eq_nil_iff.mp (hall ▸ htrim)
      rw [h] at hblank
      cases hblank
    | cons q ps =>
      refine isBlank_eq_false_of_mem (c := ',') ?_ rfl
      rw [toList_compact_cons_cons]
      simp

theorem split_compact_split (text : String) : split (compact (split text)) = split text := by
  cases hblank : isBlank text with
  | true => rw [split_of_isBlank hblank]; rfl
  | false =>
    obtain ⟨e, hcut⟩ := (cut_cut {} text.toList).trim rfl
    rw [← toList_split hblank] at hcut
    exact split_compact (isBlank_compact_split hblank) hcut fun p hp => trim_of_mem_split hp

/-- Splitting and joining are inverse to each other: on lists that come from a text, whatever the
text, and on lists of texts that are one argument each. -/
theorem split_compact_inverse :
    (∀ text, split (compact (split text)) = split text) ∧
    ∀ pieces, pieces ≠ [] → (∀ p ∈ pieces, IsPiece p) → split (compact pieces) = pieces :=
  ⟨split_compact_split, fun _ => split_compact_of_isPiece⟩

theorem split_compact_inverse_nested :
    let pieces := ["f(1, \x7b2: ',('\x7d)", ")", "\"a,\\\"b\"", "x y"]
    (∀ p ∈ pieces, IsPiece p) ∧ split (compact pieces) = pieces := by
  intro pieces
  have hpieces : ∀ p ∈ pieces, IsPiece p := by decide +kernel
  exact ⟨hpieces, split_compact_inverse.2 pieces (by decide) hpieces⟩

/-! ### One value for each parameter -/

/-- A name that can be read back from a list of names. -/
structure IsParam (p : String) : Prop where
  filled : isBlank p = false
  trimmed : trim p = p
  plain : ∀ c ∈ p.toList, c ≠ ',' ∧ isMark c = false

instance (p : String) : Decidable (IsParam p) :=
  decidable_of_iff (isBlank p = false ∧ trim p = p ∧
      p.toList.all (fun c => c != ',' && !isMark c) = true)
    ⟨fun h => ⟨h.1, h.2.1, by simpa using h.2.2⟩,
      fun h => ⟨h.filled, h.trimmed, by simpa using h.plain⟩⟩

theorem IsParam.isPiece (h : IsParam p) : IsPiece p := by
  refine ⟨?_, h.trimmed, ?_, free_of_not_mem fun hc => (h.plain _ hc).1 rfl⟩
  · rintro rfl
    cases h.filled
  · rw [run_of_not_isMark rfl fun c hc => (h.plain c hc).2]
    rfl

/-- The values that `fill` gives, with the pieces of the last one listed one by one. -/
def unfolded : List String → List String → List String
  | [], _ => []
  | [param], pieces =>
    match pieces.filter (fun piece => piece ≠ "") with
    | [] => [param]
    | kept => kept
  | param :: params, [] => param :: unfolded params []
  | param :: params, piece :: pieces =>
    (if piece = "" then param else piece) :: unfolded params pieces

theorem lastValue_cases (param : String) (pieces : List String) :
    (unfolded [param] pieces = [param] ∧ lastValue param pieces = param ∧
      ∀ p ∈ pieces, p = "") ∨
    (unfolded [param] pieces = pieces.filter (fun piece => piece ≠ "") ∧
      lastValue param pieces = compact (pieces.filter fun piece => piece ≠ "") ∧
      pieces.filter (fun piece => piece ≠ "") ≠ []) := by
  rw [unfolded, lastValue]
  cases hkept : pieces.filter (fun piece => piece ≠ "") with
  | nil =>
    refine .inl ⟨rfl, rfl, fun p hp => ?_⟩
    simpa using List.filter_eq_nil_iff.mp hkept p hp
  | cons p kept => exact .inr ⟨rfl, rfl, List.cons_ne_nil p kept⟩

theorem compact_lastValue (param : String) (pieces : List String) :
    lastValue param pieces = compact (unfolded [param] pieces) := by
  rcases lastValue_cases param pieces with ⟨hall, hlast, -⟩ | ⟨hall, hlast, -⟩ <;> rw [hall, hlast]
  rfl

theorem lastValue_unfolded (param : String) (pieces : List String) :
    lastValue param (unfolded [param] pieces) = lastValue param pieces := by
  rcases lastValue_cases param pieces with ⟨hall, hlast, -⟩ | ⟨hall, hlast, -⟩
  · rw [hall, hlast]
    by_cases hp : param = "" <;> simp [lastValue, hp, compact]
  · rw [hall, lastValue, List.filter_filter]
    simp [lastValue]

theorem fill_ne_nil (h : params ≠ []) (pieces : List String) : fill params pieces ≠ [] := by
  rw [← List.length_pos_iff, length_fill]
  exact List.length_pos_iff.mpr h

theorem unfolded_ne_nil (h : params ≠ []) (pieces : List String) : unfolded params pieces ≠ [] := by
  fun_cases unfolded params pieces with
  | case1 => exact absurd rfl h
  | case3 pieces param hkept => exact hkept
  | _ => exact List.cons_ne_nil _ _

theorem compact_cons (p : String) (hne : ps ≠ []) : compact (p :: ps) = p ++ ", " ++ compact ps := by
  cases ps with
  | nil => exact absurd rfl hne
  | cons q ps => rfl

theorem compact_fill (params pieces : List String) :
    compact (fill params pieces) = compact (unfolded params pieces) := by
  fun_induction fill params pieces with
  | case1 => rfl
  | case2 param pieces => exact compact_lastValue param pieces
  | case3 param params hne ih =>
    rw [unfolded, compact_cons _ (fill_ne_nil hne []), compact_cons _ (unfolded_ne_nil hne []), ih]
    exact hne
  | case4 param params piece pieces hne ih =>
    rw [unfolded, compact_cons _ (fill_ne_nil hne pieces),
      compact_cons _ (unfolded_ne_nil hne pieces), ih]
    exact hne

theorem fill_unfolded (params pieces : List String) :
    fill params (unfolded params pieces) = fill params pieces := by
  fun_induction fill params pieces with
  | case1 => rfl
  | case2 param pieces => rw [fill, lastValue_unfolded]
  | case3 param params hne ih =>
    rw [unfolded, fill, ih, ite_self]
    all_goals exact hne
  | case4 param params piece pieces hne ih =>
    rw [unfolded, fill, ih]
    · by_cases hpiece : piece = "" <;> simp [hpiece]
    all_goals exact hne

theorem mem_unfolded {v : String} (h : v ∈ unfolded params pieces) :
    v ∈ params ∨ v ∈ pieces ∧ v ≠ "" := by
  fun_induction unfolded params pieces with
  | case1 => cases h
  | case2 => exact .inl h
  | case3 => exact .inr (by simpa using h)
  | case4 param params hne ih =>
    rcases List.mem_cons.mp h with rfl | h
    · exact .inl List.mem_cons_self
    · exact (ih h).imp (List.mem_cons_of_mem _) (fun hv => nomatch hv.1)
  | case5 param params piece pieces hne ih =>
    rcases List.mem_cons.mp h with rfl | h
    · split
      · exact .inl List.mem_cons_self
      · next hpiece => exact .inr ⟨List.mem_cons_self, hpiece⟩
    · exact (ih h).imp (List.mem_cons_of_mem _) fun hv => ⟨List.mem_cons_of_mem _ hv.1, hv.2⟩

theorem isPiece_of_mem_split (hclosed : (run {} text.toList).isClosed = true) (hp : p ∈ split text)
    (hne : p ≠ "") : IsPiece p := by
  have htrim := trim_of_mem_split hp
  cases hblank : isBlank text with
  | true => rw [split_of_isBlank hblank] at hp; cases hp
  | false =>
    have hmem : p.toList ∈ (split text).map String.toList := List.mem_map_of_mem hp
    rw [toList_split hblank] at hmem
    obtain ⟨cs, hcs, heq⟩ := List.mem_map.mp hmem
    obtain ⟨hfree, hend⟩ := (cut_cut {} text.toList).forall_mem rfl hclosed cs hcs
    obtain ⟨after, hrun, hafter⟩ := run_trimChars cs
    refine ⟨hne, htrim, ?_, ?_⟩
    · rw [← heq]
      exact (sound_start.run _).isClosed_of_run hafter (hrun ▸ hend)
    · rw [← heq]
      exact hfree.trim

theorem isBlank_of_mem_fill (hparams : ∀ p ∈ params, isBlank p = false)
    (hpieces : ∀ p ∈ pieces, p ≠ "" → isBlank p = false) :
    ∀ v ∈ fill params pieces, isBlank v = false := by
  fun_induction fill params pieces with
  | case1 => exact List.forall_mem_nil _
  | case2 param pieces =>
    intro v hv
    rw [List.mem_singleton.mp hv, compact_lastValue]
    obtain ⟨w, hw⟩ := List.exists_mem_of_ne_nil _ (unfolded_ne_nil (List.cons_ne_nil param []) pieces)
    refine isBlank_compact hw ?_
    rcases mem_unfolded hw with hw | ⟨hw, hne⟩
    · exact hparams w hw
    · exact hpieces w hw hne
  | case3 param params hne ih =>
    obtain ⟨hparam, hparams⟩ := List.forall_mem_cons.mp hparams
    exact List.forall_mem_cons.mpr ⟨hparam, ih hparams (List.forall_mem_nil _)⟩
  | case4 param params piece pieces hne ih =>
    obtain ⟨hparam, hparams⟩ := List.forall_mem_cons.mp hparams
    obtain ⟨hpiece, hpieces⟩ := List.forall_mem_cons.mp hpieces
    refine List.forall_mem_cons.mpr ⟨?_, ih hparams hpieces⟩
    split
    · exact hparam
    · next hne => exact hpiece hne

theorem isBlank_of_mem_expand (hparams : ∀ p ∈ params, isBlank p = false) :
    ∀ v ∈ expand text params, isBlank v = false :=
  isBlank_of_mem_fill hparams fun _ hp hne =>
    isBlank_eq_false_of_trimmed (trim_of_mem_split hp) hne

/-- Values that were read from a text whose brackets and string literals are closed come back when
they are written as one text, however many pieces the text had: there is one value for each
parameter and none is blank. -/
theorem expand_compact_stable (params : List String) (text : String) (hne : params ≠ [])
    (hparams : ∀ p ∈ params, IsParam p) (hclosed : (run {} text.toList).isClosed = true) :
    let values := expand text params
    expand (compact values) params = values ∧ values.length = params.length ∧
      ∀ v ∈ values, isBlank v = false := by
  intro values
  have hpieces : ∀ v ∈ unfolded params (split text), IsPiece v := by
    intro v hv
    rcases mem_unfolded hv with hv | ⟨hv, hfilled⟩
    · exact (hparams v hv).isPiece
    · exact isPiece_of_mem_split hclosed hv hfilled
  refine ⟨?_, length_fill .., isBlank_of_mem_expand fun p hp => (hparams p hp).filled⟩
  calc expand (compact values) params
      = fill params (split (compact (unfolded params (split text)))) := by
        rw [expand, show compact values = _ from compact_fill params (split text)]
    _ = fill params (unfolded params (split text)) := by
        rw [split_compact_of_isPiece (unfolded_ne_nil hne _) hpieces]
    _ = values := fill_unfolded params (split text)

theorem expand_compact_stable_surplus :
    let params := ["a", "b"]
    let text := "f(1, [2]) ,, 'x,' , ,y"
    params ≠ [] ∧ (∀ p ∈ params, IsParam p) ∧ (run {} text.toList).isClosed = true ∧
    expand text params = ["f(1, [2])", "'x,', y"] ∧
    expand (compact (expand text params)) params = expand text params ∧
    (expand text params).length = params.length ∧ ∀ v ∈ expand text params, isBlank v = false := by
  intro params text
  have hne : params ≠ [] := by decide
  have hparams : ∀ p ∈ params, IsParam p := by decide +kernel
  have hclosed : (run {} text.toList).isClosed = true := by decide +kernel
  exact ⟨hne, hparams, hclosed, by decide +kernel,
    expand_compact_stable params text hne hparams hclosed⟩

theorem fill_nil (params : List String) : fill params [] = params := by
  induction params with
  | nil => rfl
  | cons param params ih =>
    cases params with
    | nil => rfl
    | cons q params => rw [fill, ih]; simp

theorem fill_self (params : List String) : fill params params = params := by
  induction params with
  | nil => rfl
  | cons param params ih =>
    cases params with
    | nil =>
      rw [fill, lastValue]
      by_cases h : param = "" <;> simp [h, compact]
    | cons q params => rw [fill, ih, ite_self]; simp

theorem expand_empty (params : List String) : expand "" params = params := fill_nil params

theorem expand_compact_params (h : ∀ p ∈ params, IsParam p) :
    expand (compact params) params = params := by
  by_cases hne : params = []
  · subst hne; rfl
  · rw [expand, split_compact_of_isPiece hne fun p hp => (h p hp).isPiece, fill_self]

end Arguments

end Blockwright
