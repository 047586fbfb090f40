import Blockwright.Decimal.Shortest
import Mathlib.Data.List.TakeWhile
import Mathlib.Tactic.Set

/-!
# Words and numbers of programs

What a word, a name and a number are made of, and that numbers of programs are written as such numerals
(`literal_cases`).
-/

namespace Blockwright.Python

/-- Whether a word can start with the character. All characters beyond ASCII count as letters. -/
def isWordStart (c : Char) : Bool := c.isAlpha || c = '_' || 128 ≤ c.toNat

/-- Whether a word can go on with the character. -/
def isWordChar (c : Char) : Bool := isWordStart c || c.isDigit

def keywords : List String :=
  ["False", "None", "True", "and", "as", "assert", "async", "await", "break", "class", "continue",
    "def", "del", "elif", "else", "except", "finally", "for", "from", "global", "if", "import", "in",
    "is", "lambda", "nonlocal", "not", "or", "pass", "raise", "return", "try", "while", "with",
    "yield"]

/-- Whether characters spell a number: digits, of which the first is not 0 unless all are, or digits
with a point after the first or later. -/
def isNumeral (cs : List Char) : Bool :=
  let whole := cs.takeWhile Char.isDigit
  match cs.dropWhile Char.isDigit with
  | [] => whole ≠ [] && (whole.head? ≠ some '0' || whole.all (· = '0'))
  | '.' :: fraction => whole ≠ [] && fraction.all Char.isDigit
  | _ => false

/-- Whether a text is a name: a word that is no keyword. -/
def isName (text : String) : Bool :=
  match text.toList with
  | [] => false
  | c :: cs => isWordStart c && cs.all isWordChar && !keywords.contains text

/-! ### Numerals -/

theorem isNumeral_digits {cs : List Char} (hne : cs ≠ []) (hdigits : ∀ c ∈ cs, c.isDigit = true)
    (hzero : cs.head? ≠ some '0' ∨ ∀ c ∈ cs, c = '0') : isNumeral cs = true := by
  have htake : cs.takeWhile Char.isDigit = cs := List.takeWhile_eq_self_iff.mpr hdigits
  have hdrop : cs.dropWhile Char.isDigit = [] := List.dropWhile_eq_nil_iff.mpr hdigits
  simp only [isNumeral, htake, hdrop]
  rcases hzero with h | h
  · simp [hne, h]
  · simp only [Bool.and_eq_true, Bool.or_eq_true, List.all_eq_true, decide_eq_true_eq]
    exact ⟨hne, .inr h⟩

theorem isNumeral_point {whole fraction : List Char} (hne : whole ≠ [])
    (hwhole : ∀ c ∈ whole, c.isDigit = true) (hfraction : ∀ c ∈ fraction, c.isDigit = true) :
    isNumeral (whole ++ '.' :: fraction) = true := by
  have htake : (whole ++ '.' :: fraction).takeWhile Char.isDigit = whole := by
    rw [List.takeWhile_append_of_pos hwhole]
    simp
  have hdrop : (whole ++ '.' :: fraction).dropWhile Char.isDigit = '.' :: fraction := by
    rw [List.dropWhile_append_of_pos hwhole]
    simp
  simp only [isNumeral, htake, hdrop]
  simp only [Bool.and_eq_true, List.all_eq_true, decide_eq_true_eq]
  exact ⟨hne, hfraction⟩

theorem numeral_cases {cs : List Char} (h : isNumeral cs = true) :
    ∃ whole, whole ≠ [] ∧ (∀ c ∈ whole, c.isDigit = true) ∧ (cs = whole ∨
      ∃ places, (∀ c ∈ places, c.isDigit = true) ∧ cs = whole ++ '.' :: places) := by
  have happend : cs.takeWhile Char.isDigit ++ cs.dropWhile Char.isDigit = cs :=
    List.takeWhile_append_dropWhile
  refine ⟨cs.takeWhile Char.isDigit, ?_, fun c => List.mem_takeWhile_imp, ?_⟩
  · intro hnil
    simp only [isNumeral, hnil] at h
    split at h <;> simp at h
  · simp only [isNumeral] at h
    split at h
    · next hdrop =>
      rw [hdrop, List.append_nil] at happend
      exact .inl happend.symm
    · next places hdrop =>
      simp only [Bool.and_eq_true, List.all_eq_true] at h
      rw [hdrop] at happend
      exact .inr ⟨places, h.2, happend.symm⟩
    · cases h

theorem isWordStart_of_isDigit {c : Char} (h : c.isDigit = true) : isWordStart c = false := by
  simp only [Char.isDigit, Bool.and_eq_true, decide_eq_true_eq, ge_iff_le,
    UInt32.le_iff_toNat_le] at h
  have hlow : 48 ≤ c.val.toNat := h.1
  have hhigh : c.val.toNat ≤ 57 := h.2
  have halpha : c.isAlpha = (decide ('A'.val ≤ c.val ∧ c.val ≤ 'Z'.val) ||
      decide ('a'.val ≤ c.val) && decide (c.val ≤ 'z'.val)) := rfl
  refine Bool.eq_false_iff.mpr fun hstart => ?_
  simp only [isWordStart, halpha, Bool.or_eq_true, Bool.and_eq_true, decide_eq_true_eq,
    UInt32.le_iff_toNat_le] at hstart
  rcases hstart with ((⟨hstart, -⟩ | ⟨hstart, -⟩) | rfl) | hstart
  · have : 65 ≤ c.val.toNat := hstart
    omega
  · have : 97 ≤ c.val.toNat := hstart
    omega
  · exact absurd hhigh (by decide)
  · have : 128 ≤ c.val.toNat := hstart
    omega

/-! ### The texts of numbers -/

theorem head?_toDigits_append (n : Nat) (l : List Char) :
    (Nat.toDigits 10 n ++ l).head? = (Nat.toDigits 10 n).head? := by
  obtain ⟨d, ds, hd⟩ := List.exists_cons_of_ne_nil (Nat.toDigits_ne_nil (n := n) (b := 10))
  rw [hd]
  rfl

theorem head?_toDigits {n : Nat} (h : n ≠ 0) : (Nat.toDigits 10 n).head? ≠ some '0' := by
  induction n using Nat.strong_induction_on with
  | _ n ih =>
    by_cases hlt : n < 10
    · rw [Nat.toDigits_of_lt_base hlt]
      simpa using h
    · have hdiv : n / 10 ≠ 0 := by omega
      rw [Nat.toDigits_of_base_le (by decide) (by omega), head?_toDigits_append]
      exact ih (n / 10) (by omega) hdiv

theorem isDigit_toDigits {n : Nat} {c : Char} (h : c ∈ Nat.toDigits 10 n) : c.isDigit = true :=
  Nat.isDigit_of_mem_toDigits (by decide) (by decide) h

theorem isNumeral_toDigits (n zeros : Nat) :
    isNumeral (Nat.toDigits 10 n ++ List.replicate zeros '0') = true := by
  refine isNumeral_digits (by simp) (fun c hc => ?_) ?_
  · rcases List.mem_append.mp hc with hc | hc
    · exact isDigit_toDigits hc
    · rw [List.eq_of_mem_replicate hc]; rfl
  · by_cases hn : n = 0
    · refine .inr fun c hc => ?_
      rw [hn, Nat.toDigits_zero] at hc
      rcases List.mem_append.mp hc with hc | hc
      · exact List.mem_singleton.mp hc
      · exact List.eq_of_mem_replicate hc
    · exact .inl (by rw [head?_toDigits_append]; exact head?_toDigits hn)

theorem isNumeral_positional (c : Nat) (p : Int) : isNumeral (Binary64.positional c p) = true := by
  unfold Binary64.positional
  split
  · exact isNumeral_toDigits c p.toNat
  · next hp =>
    set places := (-p).toNat
    set padded := List.replicate (places + 1 - (Nat.toDigits 10 c).length) '0' ++ Nat.toDigits 10 c
      with hpadded
    have hlength : places < padded.length := by simp [hpadded]; omega
    have hdigits : ∀ d ∈ padded, d.isDigit = true := by
      intro d hd
      rcases List.mem_append.mp hd with hd | hd
      · rw [List.eq_of_mem_replicate hd]; rfl
      · exact isDigit_toDigits hd
    refine isNumeral_point ?_ (fun d hd => hdigits d (List.mem_of_mem_take hd))
      fun d hd => hdigits d (List.mem_of_mem_drop hd)
    intro hnil
    have := congrArg List.length hnil
    simp at this
    omega

/-- The text of a number in a program is a numeral, with a sign or without. -/
theorem literal_cases (x : Binary64) : ∃ cs, isNumeral cs = true ∧
    (x.literal = String.ofList cs ∨ x.literal = "-" ++ String.ofList cs) := by
  have hnat : ∀ n : Nat, isNumeral (Nat.toDigits 10 n) = true := fun n => by
    simpa using isNumeral_toDigits n 0
  unfold Binary64.literal
  split
  · split
    · exact ⟨_, hnat x.roundAbs, .inr (by rw [Nat.toString_eq_ofList_toDigits])⟩
    · exact ⟨_, hnat x.roundAbs, .inl Nat.toString_eq_ofList_toDigits⟩
  · refine ⟨_, isNumeral_positional x.shortest.1 x.shortest.2, ?_⟩
    unfold Binary64.text
    cases x.negative with
    | false => exact .inl rfl
    | true => exact .inr (by simp)

end Blockwright.Python
