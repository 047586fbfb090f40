import Blockwright.Proofs.Words
import Blockwright.Workspace.Document
import Mathlib.Data.Nat.Digits.Defs
import Mathlib.Tactic.Ring
import Mathlib.Tactic.Positivity

/-!
# Coordinates read back

A whole number of at most 53 bits is a number of the binary64 format, so its digits read as the
number itself (`Binary64.round_read?_toString`), and a saved coordinate loads unchanged
(`Workspace.coordinate?_toString`).
-/

namespace Blockwright

/-! ### The digits of a whole number -/

theorem toList_toString_nat (n : Nat) : (toString n).toList = Nat.toDigits 10 n := by
  rw [Nat.toString_eq_ofList_toDigits, String.toList_ofList]

theorem toList_toString_negSucc (n : Nat) :
    (toString (Int.negSucc n)).toList = '-' :: Nat.toDigits 10 (n + 1) := by
  show ("-" ++ toString (n + 1)).toList = _
  rw [String.toList_append, toList_toString_nat]
  rfl

theorem toNat_of_mem_toDigits {n : Nat} {c : Char} (h : c ∈ Nat.toDigits 10 n) :
    48 ≤ c.toNat ∧ c.toNat ≤ 57 := by
  have hc := Python.isDigit_toDigits h
  simp only [Char.isDigit, Bool.and_eq_true, decide_eq_true_eq, ge_iff_le,
    UInt32.le_iff_toNat_le] at hc
  exact hc

namespace Decimal

theorem isDigit_of_mem_toDigits {n : Nat} {c : Char} (h : c ∈ Nat.toDigits 10 n) :
    isDigit c = true := by
  have hc := Python.isDigit_toDigits h
  simp only [Char.isDigit, Bool.and_eq_true, decide_eq_true_eq] at hc
  simp only [isDigit, Bool.and_eq_true, decide_eq_true_eq]
  exact hc

theorem digitsValue_toDigits (n : Nat) : digitsValue (Nat.toDigits 10 n) = n := by
  have h := Nat.ofDigitChars_ten_toDigits (n := n)
  rw [Nat.ofDigitChars_eq_foldl] at h
  simpa [digitsValue, Nat.mul_comm] using h

theorem readUnsigned?_toDigits (negative : Bool) (n : Nat) :
    readUnsigned? negative (Nat.toDigits 10 n) = some ⟨negative, n, 0⟩ := by
  have htake : (Nat.toDigits 10 n).takeWhile isDigit = Nat.toDigits 10 n :=
    List.takeWhile_eq_self_iff.mpr fun c hc => isDigit_of_mem_toDigits hc
  have hdrop : (Nat.toDigits 10 n).dropWhile isDigit = [] :=
    List.dropWhile_eq_nil_iff.mpr fun c hc => isDigit_of_mem_toDigits hc
  simp [readUnsigned?, htake, hdrop, readExponent?, digitsValue_toDigits, Nat.toDigits_ne_nil]

theorem read?_toDigits (n : Nat) : read? (Nat.toDigits 10 n) = some ⟨false, n, 0⟩ := by
  obtain ⟨c, cs, hcs⟩ := List.exists_cons_of_ne_nil (Nat.toDigits_ne_nil (n := n) (b := 10))
  have hc : isDigit c = true := isDigit_of_mem_toDigits (n := n) (by simp [hcs])
  have hsign : readSign (Nat.toDigits 10 n) = (false, Nat.toDigits 10 n) := by
    rw [hcs, readSign]
    · rintro _ ⟨rfl, -⟩
      simp [isDigit] at hc
    · rintro _ ⟨rfl, -⟩
      simp [isDigit] at hc
  rw [read?, hsign]
  exact readUnsigned?_toDigits false n

theorem read?_negated_toDigits (n : Nat) :
    read? ('-' :: Nat.toDigits 10 n) = some ⟨true, n, 0⟩ :=
  readUnsigned?_toDigits true n

end Decimal

theorem Text.trimChars_of_not_isSpace {cs : List Char} (h : ∀ c ∈ cs, isSpace c = false) :
    trimChars cs = cs := by
  have hdrop : ∀ {cs : List Char}, (∀ c ∈ cs, isSpace c = false) → cs.dropWhile isSpace = cs := by
    intro cs h
    cases cs with
    | nil => rfl
    | cons c cs => simp [h c (List.mem_cons_self ..)]
  rw [trimChars, hdrop h, hdrop fun c hc => h c (List.mem_reverse.mp hc), List.reverse_reverse]

namespace Binary64

theorem isSpace_toDigits {n : Nat} {c : Char} (h : c ∈ Nat.toDigits 10 n) :
    Text.isSpace c = false := by
  have hc := toNat_of_mem_toDigits h
  simp only [Text.isSpace, Bool.or_eq_false_iff, Bool.and_eq_false_iff, decide_eq_false_iff_not,
    beq_eq_false_iff_ne]
  omega

/-- The decimal number that the digits of a whole number spell. -/
theorem read?_toString (n : Int) :
    read? (toString n) = ofDecimal? ⟨decide (n < 0), n.natAbs, 0⟩ := by
  cases n with
  | ofNat n =>
    have htrim : Text.trimChars (Nat.toDigits 10 n) = Nat.toDigits 10 n :=
      Text.trimChars_of_not_isSpace fun c hc => isSpace_toDigits hc
    show (Decimal.read? (Text.trimChars (toString n).toList)).bind ofDecimal? = _
    rw [toList_toString_nat, htrim, Decimal.read?_toDigits]
    rfl
  | negSucc n =>
    have htrim : Text.trimChars ('-' :: Nat.toDigits 10 (n + 1)) =
        '-' :: Nat.toDigits 10 (n + 1) := by
      refine Text.trimChars_of_not_isSpace fun c hc => ?_
      rcases List.mem_cons.mp hc with rfl | hc
      · rfl
      · exact isSpace_toDigits hc
    have hneg : decide (Int.negSucc n < 0) = true := by simp
    rw [read?, toList_toString_negSucc, htrim, hneg]
    show (Decimal.read? ('-' :: Nat.toDigits 10 (n + 1))).bind ofDecimal? = _
    rw [Decimal.read?_negated_toDigits]
    rfl

/-! ### Numbers of at most 53 bits -/

theorem roundToEven_one (n : Nat) : roundToEven n 1 = n := by
  simp [roundToEven, Nat.mod_one]

theorem scaleDown_neg (n k : Nat) : scaleDown n 1 (-(k : Int)) = (n * 2 ^ k, 1) := by
  rw [scaleDown]
  split
  · next h =>
    obtain rfl : k = 0 := by omega
    simp
  · simp

/-- A number that is shifted to exactly 53 bits is written so. -/
theorem ofFraction?_of_shift {n k : Nat} (hk : n.log2 + k = 52) (hlow : 2 ^ 52 ≤ n * 2 ^ k)
    (hhigh : n * 2 ^ k < 2 ^ 53) (negative : Bool) :
    ofFraction? negative n 1 = some ⟨negative, n * 2 ^ k, -(k : Int)⟩ := by
  have hpos : n ≠ 0 := by
    rintro rfl
    simp at hlow
  have hguess : (n.log2 : Int) - (Nat.log2 1 : Nat) - 52 = -(k : Int) := by
    rw [show Nat.log2 1 = 0 by decide]
    omega
  have hexponent : exponentOf n 1 = -(k : Int) := by
    have hnot : ¬ n * 2 ^ k < Nat.pow 2 52 := Nat.not_lt.mpr hlow
    simp only [exponentOf, hguess, scaleDown_neg, Nat.one_mul]
    rw [if_neg hnot]
    omega
  have hne : n * 2 ^ k ≠ Nat.pow 2 53 := Nat.ne_of_lt hhigh
  -- `simp` would have the kernel compare with `2 ^ 53` in unary.
  rw [ofFraction?, if_neg hpos, hexponent]
  dsimp only
  rw [scaleDown_neg]
  dsimp only
  rw [roundToEven_one, if_neg hne]
  exact if_neg (by omega)

theorem ofFraction?_of_lt {n : Nat} (hpos : 0 < n) (h : n < 2 ^ 53) (negative : Bool) :
    ∃ k : Nat, ofFraction? negative n 1 = some ⟨negative, n * 2 ^ k, -(k : Int)⟩ := by
  have hlog : n.log2 < 53 := (Nat.log2_lt (by omega)).mpr h
  obtain ⟨k, hk⟩ : ∃ k, n.log2 + k = 52 := ⟨52 - n.log2, by omega⟩
  have hlow : 2 ^ 52 ≤ n * 2 ^ k := by
    calc 2 ^ 52 = 2 ^ n.log2 * 2 ^ k := by rw [← Nat.pow_add, hk]
      _ ≤ n * 2 ^ k := Nat.mul_le_mul_right _ (Nat.log2_self_le (by omega))
  have hhigh : n * 2 ^ k < 2 ^ 53 := by
    have hsum : n.log2 + 1 + k = 53 := by omega
    calc n * 2 ^ k < 2 ^ (n.log2 + 1) * 2 ^ k :=
          Nat.mul_lt_mul_of_pos_right Nat.lt_log2_self (Nat.two_pow_pos k)
      _ = 2 ^ 53 := by rw [← Nat.pow_add, hsum]
  exact ⟨k, ofFraction?_of_shift hk hlow hhigh negative⟩

theorem roundAbs_shift (negative : Bool) (n k : Nat) :
    roundAbs ⟨negative, n * 2 ^ k, -(k : Int)⟩ = n := by
  rw [roundAbs]
  split
  · next h =>
    obtain rfl : k = 0 := by
      have : (0 : Int) ≤ -(k : Int) := h
      omega
    simp
  · have hsplit : 2 * (n * 2 ^ k) + 2 ^ k = 2 ^ k + 2 * 2 ^ k * n := by ring
    have hpos : 0 < 2 * 2 ^ k := by positivity
    simp only [Int.neg_neg, Int.toNat_natCast, Nat.pow_eq]
    rw [hsplit, Nat.add_mul_div_left _ _ hpos, Nat.div_eq_of_lt (by omega), Nat.zero_add]

theorem roundAbs_ofDecimal? {n : Nat} (h : n ≤ 2 ^ 53) (negative : Bool) :
    ∃ x, ofDecimal? ⟨negative, n, 0⟩ = some x ∧ x.negative = negative ∧ x.roundAbs = n := by
  rcases Nat.eq_zero_or_pos n with rfl | hpos
  · exact ⟨⟨negative, 0, -1074⟩, rfl, rfl, by cases negative <;> decide +kernel⟩
  have hcount : digitCount n ≤ 16 := Nat.toDigits_length 10 n 16 (by decide) (by omega)
  have hfraction : ofDecimal? ⟨negative, n, 0⟩ = ofFraction? negative n 1 := by
    simp only [ofDecimal?]
    rw [if_neg (by omega), if_neg (by omega)]
    simp
  rw [hfraction]
  rcases Nat.lt_or_eq_of_le h with hlt | rfl
  · obtain ⟨k, hk⟩ := ofFraction?_of_lt hpos hlt negative
    exact ⟨_, hk, rfl, roundAbs_shift negative n k⟩
  · exact ⟨⟨negative, 2 ^ 52, 1⟩, by cases negative <;> decide +kernel, rfl,
      by cases negative <;> decide +kernel⟩

/-- A whole number of at most 53 bits reads back from its digits. -/
theorem round_read?_toString {n : Int} (h : n.natAbs ≤ 2 ^ 53) :
    ∃ x, read? (toString n) = some x ∧ x.round = n := by
  obtain ⟨x, hx, hsign, habs⟩ := roundAbs_ofDecimal? h (decide (n < 0))
  refine ⟨x, (read?_toString n).trans hx, ?_⟩
  rw [round, hsign, habs]
  by_cases hn : n < 0
  · rw [if_pos (by simpa using hn)]
    omega
  · rw [if_neg (by simpa using hn)]
    omega

end Binary64

namespace Workspace

theorem clampCoordinate_toInt (x : Int64) : clampCoordinate x.toInt = x := by
  have hlo : Int64.minValue.toInt ≤ x.toInt := Int64.minValue_le_toInt x
  have hhi : x.toInt ≤ Int64.maxValue.toInt := Int64.toInt_le x
  rw [clampCoordinate, min_eq_right hhi, max_eq_right hlo, Int64.ofInt_toInt]

/-- A saved coordinate loads unchanged. -/
theorem coordinate?_toString {attributes : Dict String} {name : String} {x : Int64}
    (h : attributes.get? name = some (toString x.toInt)) (hx : x.toInt.natAbs ≤ 2 ^ 53) :
    coordinate? attributes name = some x := by
  obtain ⟨y, hy, hround⟩ := Binary64.round_read?_toString hx
  simp only [coordinate?, h, bind, Option.bind, hy, pure, hround, clampCoordinate_toInt]

end Workspace

end Blockwright
