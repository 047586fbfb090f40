import Blockwright.Colour
import Mathlib.Algebra.Order.Ring.Int
import Mathlib.Data.List.Induction

/-!
# The hash behind a hue

The hash of a name is never reduced while it grows: a step adds the next unit and a shifted copy of
the low 32 bits, and takes the whole hash away. The first two stay below `2 ^ 31 + 2 ^ 16` together,
so that is the most by which a step can enlarge the hash (`natAbs_step_le`). The hash of a name of
`2 ^ 31` units or fewer therefore never leaves the numbers of 64 bits, and it is what the same steps
give over the integers (`toInt_run`). Main statement: `moduleHue_never_overflows`.
-/

namespace Blockwright.HueHash

/-- The UTF-16 units of a name. -/
def units (name : String) : List Nat := name.toList.flatMap utf16Units

/-- The hash of units, in 64 bits. -/
def run (units : List Nat) : Int64 := units.foldl hueStep 0

/-- The low 32 bits of a hash, shifted by five within 32 bits, as a signed number. -/
def shifted (hash : Int) : Int := (hash.bmod (2 ^ 32) * 2 ^ 5).bmod (2 ^ 32)

/-- A step of the hash over the integers. Only the shift is bound to 32 bits. -/
def step (hash : Int) (unit : Nat) : Int := unit + shifted hash - hash

/-- The hash of units over the integers. -/
def value (units : List Nat) : Int := units.foldl step 0

/-- The signed numbers of 64 bits. -/
def Fits (x : Int) : Prop := -2 ^ 63 ≤ x ∧ x < 2 ^ 63

variable {hash : Int} {unit : Nat} {read rest us : List Nat}

theorem run_concat (us : List Nat) (unit : Nat) : run (us ++ [unit]) = hueStep (run us) unit := by
  rw [run, List.foldl_append]
  rfl

theorem value_concat (us : List Nat) (unit : Nat) :
    value (us ++ [unit]) = step (value us) unit := by
  rw [value, List.foldl_append]
  rfl

/-! ### Units -/

theorem lt_of_mem_utf16Units {c : Char} (h : unit ∈ utf16Units c) : unit < 2 ^ 16 := by
  have hvalid : c.toNat < 0x110000 := by
    rcases c.valid with hlow | ⟨-, hhigh⟩
    · exact Nat.lt_trans hlow (by decide)
    · exact hhigh
  simp only [utf16Units] at h
  split at h
  · rw [List.mem_singleton] at h
    omega
  · simp only [List.mem_cons, List.not_mem_nil, or_false] at h
    rcases h with h | h <;> omega

theorem lt_of_mem_units (name : String) : ∀ unit ∈ units name, unit < 2 ^ 16 := by
  intro unit hunit
  obtain ⟨c, -, hc⟩ := List.mem_flatMap.mp hunit
  exact lt_of_mem_utf16Units hc

/-! ### The growth of the hash -/

theorem shifted_bounds (hash : Int) : -2 ^ 31 ≤ shifted hash ∧ shifted hash < 2 ^ 31 := by
  have hlow := Int.le_bmod (x := hash.bmod (2 ^ 32) * 2 ^ 5) (m := 2 ^ 32) (by decide)
  have hhigh := Int.bmod_lt (x := hash.bmod (2 ^ 32) * 2 ^ 5) (m := 2 ^ 32) (by decide)
  unfold shifted
  omega

theorem natAbs_sum_le (hash : Int) (h : unit < 2 ^ 16) :
    (unit + shifted hash).natAbs ≤ 2 ^ 31 + 2 ^ 16 := by
  have := shifted_bounds hash
  omega

theorem natAbs_step_le (hash : Int) (h : unit < 2 ^ 16) :
    (step hash unit).natAbs ≤ hash.natAbs + (2 ^ 31 + 2 ^ 16) := by
  have := natAbs_sum_le hash h
  unfold step
  omega

theorem natAbs_value_le (h : ∀ unit ∈ us, unit < 2 ^ 16) :
    (value us).natAbs ≤ us.length * (2 ^ 31 + 2 ^ 16) := by
  induction us using List.reverseRecOn with
  | nil => simp [value]
  | append_singleton us unit ih =>
    have hus := ih fun u hu => h u (List.mem_append_left _ hu)
    have hstep := natAbs_step_le (value us) (h unit (by simp))
    rw [value_concat, List.length_append, List.length_singleton]
    omega

/-- Every value that a step computes is a number of 64 bits. -/
theorem fits_step (h : ∀ unit ∈ read, unit < 2 ^ 16) (hunit : unit < 2 ^ 16)
    (hlength : read.length < 2 ^ 31) :
    Fits (unit + shifted (value read)) ∧ Fits (step (value read) unit) := by
  have hread := natAbs_value_le h
  have hsum := natAbs_sum_le (value read) hunit
  have hstep := natAbs_step_le (value read) hunit
  unfold Fits
  omega

/-! ### 64 bits and the integers -/

theorem toInt_shiftLeft_five (x : Int32) : (x <<< 5).toInt = (x.toInt * 2 ^ 5).bmod (2 ^ 32) := by
  have hmul : (x <<< 5).toBitVec = x.toBitVec * BitVec.twoPow 32 5 := by
    rw [BitVec.mul_twoPow_eq_shiftLeft]
    rfl
  show (x <<< 5).toBitVec.toInt = _
  rw [hmul, BitVec.toInt_mul]
  rfl

theorem bmod_of_fits {x : Int} (h : Fits x) : x.bmod (2 ^ 64) = x := by
  obtain ⟨hlow, hhigh⟩ := h
  exact Int.bmod_eq_of_le (by omega) (by omega)

/-- A step that ends in 64 bits is the step over the integers. -/
theorem toInt_hueStep {hash : Int64} (hunit : unit < 2 ^ 16) (h : Fits (step hash.toInt unit)) :
    (hueStep hash unit).toInt = step hash.toInt unit := by
  have hshift : (hash.toInt32 <<< 5).toInt64.toInt = shifted hash.toInt := by
    rw [Int32.toInt_toInt64, toInt_shiftLeft_five, Int64.toInt_toInt32]
    rfl
  have hofNat : (Int64.ofNat unit).toInt = unit := Int64.toInt_ofNat_of_lt (by omega)
  -- the difference is wrapped after the sum, so only the end of the step has to fit
  rw [hueStep, Int64.toInt_sub, Int64.toInt_add, hshift, hofNat, Int.bmod_sub_bmod]
  exact bmod_of_fits h

theorem toInt_run (h : ∀ unit ∈ us, unit < 2 ^ 16) (hlength : us.length ≤ 2 ^ 31) :
    (run us).toInt = value us := by
  induction us using List.reverseRecOn with
  | nil => rfl
  | append_singleton us unit ih =>
    have hus : ∀ u ∈ us, u < 2 ^ 16 := fun u hu => h u (List.mem_append_left _ hu)
    have hunit : unit < 2 ^ 16 := h unit (by simp)
    rw [List.length_append, List.length_singleton] at hlength
    have hrun : (run us).toInt = value us := ih hus (by omega)
    have hfits : Fits (step (run us).toInt unit) := by
      rw [hrun]
      exact (fits_step hus hunit (by omega)).2
    rw [run_concat, value_concat, toInt_hueStep hunit hfits, hrun]

theorem moduleHue_eq (name : String) :
    moduleHue name = ((run (units name)).toInt.tmod 360).natAbs := by
  show (run (units name) % 360).toInt.natAbs = _
  rw [Int64.toInt_mod]
  rfl

/-- While the hash of a name of at most `2 ^ 31` units is computed, no value leaves the numbers of
64 bits: after `n` units the hash is at most `n * (2 ^ 31 + 2 ^ 16)` in size. So it is the hash over
the integers at every point, and gives a hue below 360. -/
theorem moduleHue_never_overflows (name : String) (hlength : (units name).length ≤ 2 ^ 31) :
    (∀ read rest, units name = read ++ rest →
      (value read).natAbs ≤ read.length * (2 ^ 31 + 2 ^ 16) ∧ (run read).toInt = value read) ∧
    (∀ read (unit : Nat) rest, units name = read ++ unit :: rest →
      Fits (unit + shifted (value read)) ∧ Fits (step (value read) unit)) ∧
    moduleHue name = ((value (units name)).tmod 360).natAbs ∧ moduleHue name < 360 := by
  have hunits := lt_of_mem_units name
  refine ⟨fun read rest hread => ?_, fun read unit rest hread => ?_, ?_, ?_⟩
  · rw [hread, List.length_append] at hlength
    rw [hread] at hunits
    have hunits : ∀ u ∈ read, u < 2 ^ 16 := fun u hu => hunits u (List.mem_append_left _ hu)
    exact ⟨natAbs_value_le hunits, toInt_run hunits (by omega)⟩
  · rw [hread, List.length_append, List.length_cons] at hlength
    rw [hread] at hunits
    exact fits_step (fun u hu => hunits u (List.mem_append_left _ hu)) (hunits unit (by simp))
      (by omega)
  · rw [moduleHue_eq, toInt_run hunits hlength]
  · rw [moduleHue_eq, Int.natAbs_tmod]
    exact Nat.mod_lt _ (by decide)

/-- The sixth shift of `requests` leaves 32 bits, and the hash turns negative. -/
theorem moduleHue_never_overflows_requests :
    (units "requests").length ≤ 2 ^ 31 ∧ value (units "requests") = -393257020 ∧
    (value (units "requests")).natAbs ≤ 8 * (2 ^ 31 + 2 ^ 16) ∧
    (run (units "requests")).toInt = value (units "requests") ∧
    (Fits (115 + shifted 108402606) ∧ Fits (step 108402606 115)) ∧
    shifted 108402606 = -826083904 ∧ moduleHue "requests" = 220 ∧ moduleHue "requests" < 360 := by
  have hlength : (units "requests").length ≤ 2 ^ 31 := by decide +kernel
  have hvalue : value (units "requests") = -393257020 := by decide +kernel
  obtain ⟨hruns, hsteps, hhue, hlt⟩ := moduleHue_never_overflows "requests" hlength
  have hrun := hruns (units "requests") [] (List.append_nil _).symm
  have hstep := hsteps (units "reque") 115 (units "ts") (by decide +kernel)
  have hread : value (units "reque") = 108402606 := by decide +kernel
  rw [hread] at hstep
  rw [hvalue] at hhue
  exact ⟨hlength, hvalue, hrun.1, hrun.2, hstep, by decide, hhue, hlt⟩

end Blockwright.HueHash
