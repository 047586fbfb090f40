import Blockwright.Text.Utf8
import Mathlib.Data.List.Basic

/-!
# Text in UTF-8

The bytes of a text are those of its characters, and each character reads as itself whatever follows
it (`utf8Chars_encode`). So bytes of a text spell that text again: `ofUtf8?_toUtf8`, `ofUtf8_toUtf8`.
-/

namespace Blockwright.Text

open String (utf8EncodeChar)

/-! ### The bytes of a text -/

theorem toList_loop_eq (bytes : ByteArray) (i : Nat) (acc : List UInt8) :
    ByteArray.toList.loop bytes i acc = acc.reverse ++ bytes.data.toList.drop i := by
  induction hn : bytes.size - i generalizing i acc with
  | zero =>
    have hlen : bytes.data.toList.length ≤ i := by
      simp only [Array.length_toList, ByteArray.size_data]; omega
    rw [ByteArray.toList.loop, if_neg (by omega), List.drop_eq_nil_of_le hlen, List.append_nil]
  | succ n ih =>
    have hi : i < bytes.data.toList.length := by
      simp only [Array.length_toList, ByteArray.size_data]; omega
    have hget : bytes.get! i = bytes.data.toList[i] :=
      getElem!_pos bytes.data i (by simpa using hi)
    rw [ByteArray.toList.loop, if_pos (by omega), ih (i + 1) _ (by omega), List.reverse_cons,
      List.append_assoc, List.drop_eq_getElem_cons hi, hget, List.singleton_append]

theorem toUtf8_eq (s : String) : toUtf8 s = s.toList.flatMap utf8EncodeChar := by
  have hbytes : s.toByteArray = s.toList.utf8Encode := by
    rw [← String.toByteArray_ofList, String.ofList_toList]
  rw [toUtf8, ByteArray.toList, toList_loop_eq, String.toUTF8_eq_toByteArray, hbytes]
  simp [List.utf8Encode]

/-! ### Characters read back -/

theorem toNat_valid (c : Char) : c.toNat < 0xD800 ∨ 0xDFFF < c.toNat ∧ c.toNat < 0x110000 := c.valid

theorem utf8Lead?_two {n : Nat} (hlow : 0x7F < n) (hhigh : n ≤ 0x7FF) :
    utf8Lead? (n / 64 % 32 + 192) = some (1, 0x80, 0xBF) := by
  rw [utf8Lead?, if_neg (by omega), if_pos (by omega)]

/-- The range of the second byte leaves out what two bytes can hold, and the surrogates. -/
theorem utf8Lead?_three {n : Nat} (hlow : 0x7FF < n) (hhigh : n ≤ 0xFFFF)
    (hvalid : n < 0xD800 ∨ 0xDFFF < n) :
    ∃ low high, utf8Lead? (n / 4096 % 16 + 224) = some (2, low, high) ∧
      low ≤ n / 64 % 64 + 128 ∧ n / 64 % 64 + 128 ≤ high := by
  obtain h | h | h : n / 4096 % 16 = 0 ∨ n / 4096 % 16 = 13 ∨
      n / 4096 % 16 ≠ 0 ∧ n / 4096 % 16 ≠ 13 := by omega
  · exact ⟨0xA0, 0xBF, by rw [h]; rfl, by omega, by omega⟩
  · exact ⟨0x80, 0x9F, by rw [h]; rfl, by omega, by omega⟩
  · refine ⟨0x80, 0xBF, ?_, by omega, by omega⟩
    rw [utf8Lead?, if_neg (by omega), if_neg (by omega), if_neg (by omega), if_neg (by omega),
      if_pos (by omega)]

/-- The range of the second byte leaves out what three bytes can hold, and what is no character. -/
theorem utf8Lead?_four {n : Nat} (hlow : 0xFFFF < n) (hhigh : n < 0x110000) :
    ∃ low high, utf8Lead? (n / 262144 % 8 + 240) = some (3, low, high) ∧
      low ≤ n / 4096 % 64 + 128 ∧ n / 4096 % 64 + 128 ≤ high := by
  obtain h | h | h : n / 262144 % 8 = 0 ∨ n / 262144 % 8 = 4 ∨
      0 < n / 262144 % 8 ∧ n / 262144 % 8 < 4 := by omega
  · exact ⟨0x90, 0xBF, by rw [h]; rfl, by omega, by omega⟩
  · exact ⟨0x80, 0x8F, by rw [h]; rfl, by omega, by omega⟩
  · refine ⟨0x80, 0xBF, ?_, by omega, by omega⟩
    rw [utf8Lead?, if_neg (by omega), if_neg (by omega), if_neg (by omega), if_neg (by omega),
      if_neg (by omega), if_neg (by omega), if_pos (by omega)]

theorem utf8Tail_cons {count low high code n : Nat} {rest : List UInt8} (hn : n < 256)
    (hlow : low ≤ n) (hhigh : n ≤ high) :
    utf8Tail (count + 1) low high code (UInt8.ofNat n :: rest) =
      utf8Tail count 0x80 0xBF (code * 64 + n % 64) rest := by
  have hb : (UInt8.ofNat n).toNat = n := by rw [UInt8.toNat_ofNat']; omega
  rw [utf8Tail, hb, if_pos ⟨hlow, hhigh⟩]

theorem utf8Chars_lead {n count low high fuel : Nat} {rest : List UInt8} (hn : n < 256)
    (h : 0x80 ≤ n) (hlead : utf8Lead? n = some (count, low, high)) :
    utf8Chars (fuel + 1) (UInt8.ofNat n :: rest) =
      (utf8Tail count low high (n % Nat.pow 2 (6 - count)) rest).1 ::
        utf8Chars fuel (utf8Tail count low high (n % Nat.pow 2 (6 - count)) rest).2 := by
  have hb : (UInt8.ofNat n).toNat = n := by rw [UInt8.toNat_ofNat']; omega
  rw [utf8Chars, hb, if_neg (by omega), hlead]

theorem utf8Chars_encode (c : Char) (fuel : Nat) (rest : List UInt8) :
    utf8Chars (fuel + 1) (utf8EncodeChar c ++ rest) = some c :: utf8Chars fuel rest := by
  have hvalid := toNat_valid c
  have hc : ∀ n, n = c.toNat → (some (Char.ofNat n) : Option Char) = some c := by
    rintro n rfl
    rw [Char.ofNat_toNat]
  rw [utf8EncodeChar]
  generalize hn : c.val.toNat = n
  have hn' : c.toNat = n := hn
  rw [hn'] at hvalid hc
  split_ifs with h1 h2 h3
  · have hb : (UInt8.ofNat n).toNat = n := by rw [UInt8.toNat_ofNat']; omega
    rw [List.singleton_append, utf8Chars, hb, if_pos (by omega), hc n rfl]
  · rw [List.cons_append, List.singleton_append,
      utf8Chars_lead (by omega) (by omega) (utf8Lead?_two (by omega) h2),
      utf8Tail_cons (by omega) (by omega) (by omega), utf8Tail, hc _ (by simp; omega)]
  · obtain ⟨low, high, hlead, hlow, hhigh⟩ := utf8Lead?_three (n := n) (by omega) h3 (by omega)
    rw [List.cons_append, List.cons_append, List.singleton_append,
      utf8Chars_lead (by omega) (by omega) hlead, utf8Tail_cons (by omega) hlow hhigh,
      utf8Tail_cons (by omega) (by omega) (by omega), utf8Tail, hc _ (by simp; omega)]
  · obtain ⟨low, high, hlead, hlow, hhigh⟩ := utf8Lead?_four (n := n) (by omega) (by omega)
    rw [List.cons_append, List.cons_append, List.cons_append, List.singleton_append,
      utf8Chars_lead (by omega) (by omega) hlead, utf8Tail_cons (by omega) hlow hhigh,
      utf8Tail_cons (by omega) (by omega) (by omega),
      utf8Tail_cons (by omega) (by omega) (by omega), utf8Tail, hc _ (by simp; omega)]

theorem utf8Chars_flatMap {cs : List Char} {fuel : Nat} (hfuel : cs.length ≤ fuel) :
    utf8Chars fuel (cs.flatMap utf8EncodeChar) = cs.map some := by
  induction cs generalizing fuel with
  | nil => cases fuel <;> rfl
  | cons c cs ih =>
    obtain ⟨fuel, rfl⟩ : ∃ n, fuel = n + 1 := ⟨fuel - 1, by simp at hfuel; omega⟩
    rw [List.flatMap_cons, utf8Chars_encode, ih (by simpa using hfuel), List.map_cons]

theorem length_le_utf8 (cs : List Char) : cs.length ≤ (cs.flatMap utf8EncodeChar).length := by
  induction cs with
  | nil => exact Nat.le_refl _
  | cons c cs ih =>
    have hpos := List.length_pos_of_ne_nil (String.utf8EncodeChar_ne_nil (c := c))
    simp only [List.flatMap_cons, List.length_append, List.length_cons]
    omega

theorem utf8Chars_toUtf8 (s : String) :
    utf8Chars (toUtf8 s).length (toUtf8 s) = s.toList.map some := by
  rw [toUtf8_eq, utf8Chars_flatMap (length_le_utf8 _)]

theorem ofUtf8?_toUtf8 (s : String) : ofUtf8? (toUtf8 s) = some s := by
  have hall : (s.toList.map some).mapM id = some s.toList := by
    induction s.toList with
    | nil => rfl
    | cons c cs ih => rw [List.map_cons, List.mapM_cons, ih]; rfl
  rw [ofUtf8?, utf8Chars_toUtf8, hall, Option.map_some, String.ofList_toList]

theorem ofUtf8_toUtf8 (s : String) : ofUtf8 (toUtf8 s) = s := by
  rw [ofUtf8, utf8Chars_toUtf8, List.map_map]
  exact (congrArg String.ofList (List.map_id s.toList)).trans String.ofList_toList

end Blockwright.Text
