import SymbolicAlgebra.Proofs.ValuePreservation

namespace SymbolicAlgebra

open SymbolicAlgebra.Expr

theorem bitLength_le_iff {n k : Nat} : bitLength n ≤ k ↔ n < 2 ^ k := by
  unfold bitLength
  split
  · rename_i zero
    simp [zero]
  · rename_i nonzero
    exact Nat.log2_lt nonzero

theorem lt_two_pow_bitLength (n : Nat) : n < 2 ^ bitLength n :=
  bitLength_le_iff.mp le_rfl

/-- Each factor of a power adds no more bits than the base has. -/
theorem bitLength_pow_le (n : Nat) {k : Nat} (positive : k ≠ 0) :
    bitLength (n ^ k) ≤ bitLength n * k := by
  rw [bitLength_le_iff, pow_mul]
  exact Nat.pow_lt_pow_left (lt_two_pow_bitLength n) positive

/-- Numerator and denominator have at most so many bits. -/
structure BitsWithin (bits : Nat) (q : Rat) : Prop where
  numerator : bitLength q.num.natAbs ≤ bits
  denominator : bitLength q.den ≤ bits

/-- The bits of the numerator or of the denominator, whichever are more. -/
def bitsOf (q : Rat) : Nat :=
  max (bitLength q.num.natAbs) (bitLength q.den)

theorem bitsWithin_iff {bits : Nat} {q : Rat} : BitsWithin bits q ↔ bitsOf q ≤ bits := by
  rw [bitsOf, max_le_iff]
  exact ⟨fun within => ⟨within.1, within.2⟩, fun within => ⟨within.1, within.2⟩⟩

theorem bitsOf_pow_le (q : Rat) {k : Nat} (positive : k ≠ 0) : bitsOf (q ^ k) ≤ bitsOf q * k := by
  refine max_le ?_ ?_
  · rw [Rat.num_pow, Int.natAbs_pow]
    exact (bitLength_pow_le _ positive).trans (Nat.mul_le_mul_right k (le_max_left ..))
  · rw [Rat.den_pow]
    exact (bitLength_pow_le _ positive).trans (Nat.mul_le_mul_right k (le_max_right ..))

/-- A reciprocal has the numerator for its denominator, and the denominator for its numerator. -/
theorem bitsOf_inv {q : Rat} (nonzero : q ≠ 0) : bitsOf q⁻¹ = bitsOf q := by
  have numerator : q.num ≠ 0 := Rat.num_ne_zero.mpr nonzero
  rw [bitsOf, bitsOf, Rat.num_inv, Rat.den_inv, if_neg numerator, Int.natAbs_mul,
    Int.natAbs_sign_of_ne_zero numerator, one_mul, Int.natAbs_natCast, max_comm]

/-- What is estimated before a power is taken bounds the power. -/
theorem bitsOf_zpow_le {q : Rat} (nonzero : q ≠ 0) {n : Int} (exponent : n ≠ 0) :
    bitsOf (q ^ n) ≤ powerBits q n := by
  have magnitude : n.natAbs ≠ 0 := Int.natAbs_ne_zero.mpr exponent
  have bound : bitsOf (q ^ n.natAbs) ≤ powerBits q n := bitsOf_pow_le q magnitude
  rcases Int.natAbs_eq n with same | same
  · rwa [same, zpow_natCast, ← same]
  · rwa [same, zpow_neg, zpow_natCast, bitsOf_inv (pow_ne_zero _ nonzero), ← same]

theorem bitsWithin_of_powerBits {q : Rat} (nonzero : q ≠ 0) {n : Int}
    (within : powerBits q n ≤ powerBitLimit) : BitsWithin powerBitLimit (q ^ n) := by
  by_cases exponent : n = 0
  · rw [exponent, zpow_zero]
    exact ⟨by decide, by decide⟩
  · exact bitsWithin_iff.mpr ((bitsOf_zpow_le nonzero exponent).trans within)

/-- Zero has its positive powers. -/
theorem exactPower_zero (n : Int) :
    exactPower 0 n = if 0 < n then .ok 0 else .error .zeroToNonPositivePower := by
  rw [exactPower_eq, if_pos rfl, zeroPower]
  simp only [Int.cast_pos]

theorem exists_exactPower_unit {q : Rat} (unit : q = 1 ∨ q = -1) (n : Int) :
    ∃ r, exactPower q n = .ok r := by
  rcases unit with rfl | rfl
  · exact ⟨1, by rw [exactPower_eq, if_neg one_ne_zero, if_pos rfl]⟩
  · exact ⟨_, by rw [exactPower_eq, if_neg (by decide), if_neg (by decide), if_pos rfl]⟩

/-- Any other number has the powers that are small enough. -/
theorem exactPower_of_not_unit {q : Rat} (zero : q ≠ 0) (one : q ≠ 1) (minus_one : q ≠ -1)
    (n : Int) : exactPower q n =
      if powerBitLimit < n.natAbs * bitsOf q then .error (.exponentTooLarge n)
      else .ok (q ^ n) := by
  rw [exactPower_eq, if_neg zero, if_neg one, if_neg minus_one, mul_comm]
  rfl

theorem exactPower_eq_ok {q r : Rat} {n : Int} (found : exactPower q n = .ok r) : r = q ^ n := by
  by_cases zero : q = 0
  · subst zero
    rw [exactPower_zero] at found
    split at found
    · rename_i positive
      cases found
      rw [zero_zpow n positive.ne']
    · cases found
  · exact Interpretation.exactPower_eq_zpow zero found

/-- An integer power of a number is its exact value in lowest terms. It is refused of zero if the
exponent is not positive, never of the units, and of any other number exactly if the exponent times
the bits of the base is past the limit, which the bits of a power that is taken never are. -/
theorem exactPower_exact_and_bounded (q : Rat) (n : Int) :
    (∀ r, exactPower q n = .ok r → r = q ^ n ∧ (number r).Canonical ∧
        (q ≠ 0 → q ≠ 1 → q ≠ -1 → BitsWithin (2 ^ 24) r)) ∧
      (q = 0 → exactPower q n = if 0 < n then .ok 0 else .error .zeroToNonPositivePower) ∧
      (q = 1 ∨ q = -1 → ∃ r, exactPower q n = .ok r) ∧
      (q ≠ 0 → q ≠ 1 → q ≠ -1 → exactPower q n =
        if 2 ^ 24 < n.natAbs * bitsOf q then .error (.exponentTooLarge n) else .ok (q ^ n)) := by
  refine ⟨fun r found => ⟨exactPower_eq_ok found, canonical_number r, ?_⟩, ?_,
    fun unit => exists_exactPower_unit unit n, fun zero one minus_one => ?_⟩
  · intro zero one minus_one
    rw [exactPower_of_not_unit zero one minus_one] at found
    split at found
    · cases found
    · rename_i within
      cases found
      rw [mul_comm, not_lt] at within
      exact bitsWithin_of_powerBits zero within
  · rintro rfl
    exact exactPower_zero n
  · exact exactPower_of_not_unit zero one minus_one n

/-- An exponent that fits no word, and one whose bits come to one more than the limit. -/
example : exactPower 2 (2 ^ 64) = .error (.exponentTooLarge (2 ^ 64)) ∧
    exactPower 2 8388609 = .error (.exponentTooLarge 8388609) :=
  ⟨rfl, rfl⟩

end SymbolicAlgebra
