import Blockwright.Script.Token

/-!
# The fuel of the words of a script

Whatever is read of a script takes characters from its front, and a token takes at least one. So the
length of the text is fuel enough: more gives the same quotes, words and tokens (`readQuoted?_fuel`,
`readWord?_fuel`, `tokens?_fuel`).
-/

namespace Blockwright.Script

/-! ### What is left -/

theorem length_dropWhile_lt {f : Char → Bool} {cs rest : List Char} {c : Char}
    (h : cs.dropWhile f = c :: rest) : rest.length < cs.length := by
  have hle := (List.dropWhile_suffix (l := cs) f).length_le
  rw [h, List.length_cons] at hle
  omega

theorem length_of_readParameter? {cs rest : List Char} {name : String}
    (h : readParameter? cs = some (name, rest)) : rest.length < cs.length := by
  cases cs with
  | nil => cases h
  | cons c cs =>
    rw [List.length_cons]
    rw [readParameter?] at h
    split at h
    · split at h
      · next hdrop =>
        cases h
        have hlt := length_dropWhile_lt hdrop
        omega
      · cases h
    · split at h
      · cases h
        omega
      · split at h
        · cases h
          have hle := (List.dropWhile_suffix (l := cs) isNameChar).length_le
          omega
        · cases h

/-- A step of a reader that fails or takes characters and goes on. -/
inductive Moves (read : Nat → List Char → Option (Word × List Char)) (cs : List Char) : Prop
  | fails (h : ∀ fuel, read (fuel + 1) cs = none)
  | onward (first : Word) (rest : List Char) (hlt : rest.length < cs.length)
    (h : ∀ fuel, read (fuel + 1) cs = (read fuel rest).bind fun x => some (first ++ x.1, x.2))

/-- A step of a reader: it ends here, or it moves. -/
inductive Step (read : Nat → List Char → Option (Word × List Char)) (cs : List Char) : Prop
  | ends (x : Word × List Char) (hle : x.2.length ≤ cs.length) (h : ∀ fuel, read (fuel + 1) cs = some x)
  | moves (h : Moves read cs)

section Readers

variable {read : Nat → List Char → Option (Word × List Char)} (hstep : ∀ cs, Step read cs)

include hstep

theorem length_le_of_steps (hzero : ∀ cs, read 0 cs = none) {fuel : Nat} {cs : List Char}
    {x : Word × List Char} (h : read fuel cs = some x) : x.2.length ≤ cs.length := by
  induction fuel generalizing cs x with
  | zero => cases (hzero cs).symm.trans h
  | succ fuel ih =>
    cases hstep cs with
    | ends y hle hread =>
      cases (hread fuel).symm.trans h
      exact hle
    | moves hmoves =>
      cases hmoves with
      | fails hread => cases (hread fuel).symm.trans h
      | onward first rest hlt hread =>
        rw [hread] at h
        obtain ⟨y, hy, h⟩ := Option.bind_eq_some_iff.mp h
        cases h
        have hle := ih hy
        exact Nat.le_of_lt (Nat.lt_of_le_of_lt hle hlt)

theorem Moves.length_lt (hzero : ∀ cs, read 0 cs = none) {fuel : Nat} {cs : List Char}
    {x : Word × List Char} (hmoves : Moves read cs) (h : read fuel cs = some x) :
    x.2.length < cs.length := by
  cases fuel with
  | zero => cases (hzero cs).symm.trans h
  | succ fuel =>
    cases hmoves with
    | fails hread => cases (hread fuel).symm.trans h
    | onward first rest hlt hread =>
      rw [hread] at h
      obtain ⟨y, hy, h⟩ := Option.bind_eq_some_iff.mp h
      cases h
      have hle := length_le_of_steps hstep hzero hy
      exact Nat.lt_of_le_of_lt hle hlt

/-- Fuel for each character is enough, and `k` for the end of the text. -/
theorem fuel_of_steps {k : Nat} (hbase : ∀ n m, k ≤ n → k ≤ m → read n [] = read m []) {n m : Nat}
    {cs : List Char} (hn : cs.length + k ≤ n) (hm : cs.length + k ≤ m) : read n cs = read m cs := by
  induction n generalizing m cs with
  | zero =>
    obtain rfl : cs = [] := List.eq_nil_of_length_eq_zero (by omega)
    exact hbase _ _ (by omega) (by omega)
  | succ n ih =>
    cases m with
    | zero =>
      obtain rfl : cs = [] := List.eq_nil_of_length_eq_zero (by omega)
      exact hbase _ _ (by omega) (by omega)
    | succ m =>
      cases hstep cs with
      | ends x _ hread => rw [hread, hread]
      | moves hmoves =>
        cases hmoves with
        | fails hread => rw [hread, hread]
        | onward first rest hlt hread => rw [hread, hread, ih (m := m) (by omega) (by omega)]

end Readers

/-! ### Quotes and words -/

theorem readQuoted?_step (cs : List Char) : Step readQuoted? cs := by
  cases cs with
  | nil => exact .moves (.fails fun _ => rfl)
  | cons c cs =>
    have honward : ∀ part rest, rest.length ≤ cs.length →
        (∀ fuel, readQuoted? (fuel + 1) (c :: cs) =
          (readQuoted? fuel rest).bind fun x => some (part :: x.1, x.2)) → Step readQuoted? (c :: cs) :=
      fun part rest hle h => .moves (.onward [part] rest (Nat.lt_succ_of_le hle) h)
    by_cases hquote : c = '"'
    · subst hquote
      exact .ends ([], cs) (by simp) fun _ => by simp [readQuoted?]
    by_cases hslash : c = '\\'
    · subst hslash
      cases cs with
      | nil => exact .moves (.fails fun _ => by simp [readQuoted?])
      | cons d cs =>
        by_cases hd : d ∈ ['$', '"', '\x60', '\\']
        · exact honward (.text [d] true) cs (Nat.le_succ _) fun fuel => by
            simp only [readQuoted?, hd, if_true]; rfl
        · exact honward (.text ['\\', d] true) cs (Nat.le_succ _) fun fuel => by
            simp only [readQuoted?, hd, if_true, if_false]; rfl
    by_cases hdollar : c = '$'
    · subst hdollar
      cases hparameter : readParameter? cs with
      | some found =>
        exact honward (.parameter found.1 true) found.2
          (Nat.le_of_lt (length_of_readParameter? hparameter)) fun fuel => by
            simp only [readQuoted?, hparameter, if_true]; rfl
      | none =>
        exact honward (.text ['$'] true) cs (Nat.le_refl _) fun fuel => by
          simp only [readQuoted?, hparameter, if_true]; rfl
    · exact honward (.text [c] true) cs (Nat.le_refl _) fun fuel => by
        simp only [readQuoted?, hquote, hslash, hdollar, if_false]; rfl

theorem readQuoted?_fuel {n m : Nat} {cs : List Char} (hn : cs.length ≤ n) (hm : cs.length ≤ m) :
    readQuoted? n cs = readQuoted? m cs := by
  have hnil : ∀ n, readQuoted? n [] = none := fun n => by cases n <;> rfl
  exact fuel_of_steps (k := 0) readQuoted?_step (fun n m _ _ => by rw [hnil, hnil]) hn hm

theorem readWord?_moves {c : Char} (hc : endsWord c = false) (cs : List Char) :
    Moves readWord? (c :: cs) := by
  have honward : ∀ first rest, rest.length ≤ cs.length →
      (∀ fuel, readWord? (fuel + 1) (c :: cs) =
        (readWord? fuel rest).bind fun x => some (first ++ x.1, x.2)) → Moves readWord? (c :: cs) :=
    fun first rest hle h => .onward first rest (Nat.lt_succ_of_le hle) h
  by_cases hsingle : c = '\''
  · subst hsingle
    cases hdrop : cs.dropWhile (· != '\'') with
    | nil => exact .fails fun _ => by simp [readWord?, hdrop, hc]
    | cons d rest =>
      exact honward [.text (cs.takeWhile (· != '\'')) true] rest
        (Nat.le_of_lt (length_dropWhile_lt hdrop)) fun fuel => by
          simp only [readWord?, hc, hdrop, if_true, Bool.false_eq_true, if_false]; rfl
  by_cases hdouble : c = '"'
  · subst hdouble
    cases hquoted : readQuoted? cs.length cs with
    | none => exact .fails fun _ => by simp [readWord?, hquoted, hc]
    | some x =>
      exact honward (.text [] true :: x.1) x.2
        (length_le_of_steps readQuoted?_step (fun _ => rfl) hquoted) fun fuel => by
          simp only [readWord?, hc, hquoted, if_true, Bool.false_eq_true, if_false]; rfl
  by_cases hslash : c = '\\'
  · subst hslash
    cases cs with
    | nil =>
      exact honward [.text ['\\'] true] [] (Nat.le_refl _) fun fuel => by
        simp only [readWord?, hc, if_true, Bool.false_eq_true, if_false]; rfl
    | cons d cs =>
      exact honward (if d = '\n' then [] else [.text [d] true]) cs (Nat.le_succ _) fun fuel => by
        simp only [readWord?, hc, if_true, Bool.false_eq_true, if_false]; rfl
  by_cases hdollar : c = '$'
  · subst hdollar
    cases hparameter : readParameter? cs with
    | some found =>
      exact honward [.parameter found.1 false] found.2
        (Nat.le_of_lt (length_of_readParameter? hparameter)) fun fuel => by
          simp only [readWord?, hc, hparameter, if_true, Bool.false_eq_true, if_false]; rfl
    | none =>
      exact honward [.text ['$'] false] cs (Nat.le_refl _) fun fuel => by
        simp only [readWord?, hc, hparameter, if_true, Bool.false_eq_true, if_false]; rfl
  · exact honward [.text [c] false] cs (Nat.le_refl _) fun fuel => by
      simp only [readWord?, hc, hsingle, hdouble, hslash, hdollar, Bool.false_eq_true, if_false]; rfl

theorem readWord?_step (cs : List Char) : Step readWord? cs := by
  cases cs with
  | nil => exact .ends ([], []) (Nat.le_refl _) fun _ => rfl
  | cons c cs =>
    cases hc : endsWord c with
    | true => exact .ends ([], c :: cs) (Nat.le_refl _) fun _ => by simp only [readWord?, hc, if_true]
    | false => exact .moves (readWord?_moves hc cs)

theorem readWord?_fuel {n m : Nat} {cs : List Char} (hn : cs.length < n) (hm : cs.length < m) :
    readWord? n cs = readWord? m cs := by
  have hnil : ∀ n, 1 ≤ n → readWord? n [] = some ([], []) := fun n hn => by
    cases n with
    | zero => cases hn
    | succ n => rfl
  exact fuel_of_steps (k := 1) readWord?_step (fun n m hn hm => by rw [hnil n hn, hnil m hm]) hn hm

/-! ### Tokens -/

theorem endsWord_of_find? {c : Char} {cs : List Char} (hspace : ¬(c = ' ' ∨ c = '\t'))
    (h : (operators.find? fun op => op.toList.isPrefixOf (c :: cs)) = none) : endsWord c = false := by
  refine Bool.eq_false_iff.mpr fun hends => ?_
  have hone : [' ', '\t', '\n', ';', '&', '|', '<', '>', '(', ')'].all (fun d =>
      d = ' ' || d = '\t' || operators.contains (String.singleton d)) = true := by decide
  have hmem : c ∈ [' ', '\t', '\n', ';', '&', '|', '<', '>', '(', ')'] := by
    simpa [endsWord] using hends
  have hoperator : String.singleton c ∈ operators := by
    have hc := List.all_eq_true.mp hone c hmem
    simp only [Bool.or_eq_true, decide_eq_true_eq, List.contains_iff_mem] at hc
    exact hc.resolve_left hspace
  have hno := List.find?_eq_none.mp h _ hoperator
  simp at hno

/-- The length of the text is fuel enough for its tokens. -/
theorem tokens?_fuel {n m line : Nat} {cs : List Char} (hn : cs.length ≤ n) (hm : cs.length ≤ m) :
    tokens? n line cs = tokens? m line cs := by
  induction n generalizing m line cs with
  | zero =>
    obtain rfl : cs = [] := List.eq_nil_of_length_eq_zero (by omega)
    cases m <;> rfl
  | succ n ih =>
    cases cs with
    | nil => cases m <;> rfl
    | cons c cs =>
      obtain ⟨m, rfl⟩ : ∃ k, m = k + 1 := ⟨m - 1, by rw [List.length_cons] at hm; omega⟩
      have hrest : ∀ {rest : List Char} (line : Nat), rest.length ≤ cs.length →
          tokens? n line rest = tokens? m line rest := fun line hle =>
        ih (Nat.le_trans hle (Nat.le_of_succ_le_succ hn)) (Nat.le_trans hle (Nat.le_of_succ_le_succ hm))
      rw [tokens?, tokens?]
      split
      · exact hrest line (Nat.le_refl _)
      next hspace =>
      split
      · exact hrest line (List.dropWhile_suffix _).length_le
      split
      · exact hrest (line + 1) (by simp)
      split
      · next op hop =>
        have hlength : ∀ op ∈ operators, 0 < op.length := by decide
        have hpos := hlength op (List.mem_of_find?_eq_some hop)
        have hdrop : ((c :: cs).drop op.length).length ≤ cs.length := by
          rw [List.length_drop, List.length_cons]
          omega
        dsimp only
        rw [hrest _ hdrop]
      · next hnone =>
        have hmoves := readWord?_moves (endsWord_of_find? hspace hnone) cs
        cases hword : readWord? (cs.length + 2) (c :: cs) with
        | none => rfl
        | some x =>
          have hlt := hmoves.length_lt readWord?_step (fun _ => rfl) hword
          show (do return Token.word x.1 line :: (← tokens? n line x.2)) = _
          rw [hrest line (Nat.le_of_lt_succ hlt)]
          rfl

end Blockwright.Script
