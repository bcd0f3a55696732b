import Mathlib.Data.Rat.Lemmas
import SymbolicAlgebra.Proofs.SlotPrograms

namespace SymbolicAlgebra

/-- Dividing in the rational numbers comes to the same terms. -/
theorem num_den_div (n : Int) {d : Int} (nonzero : d ≠ 0) :
    ((n : Rat) / d).num = (lowestTerms n d).1 ∧
      (((n : Rat) / d).den : Int) = (lowestTerms n d).2 := by
  obtain ⟨positive, coprime, cross⟩ := lowestTerms_spec n nonzero
  generalize lowestTerms n d = terms at positive coprime cross ⊢
  have same : (n : Rat) / d = (terms.1 : Rat) / terms.2 := by
    rw [div_eq_div_iff (by exact_mod_cast nonzero) (by exact_mod_cast positive.ne')]
    exact_mod_cast cross.symm
  rw [same]
  exact ⟨Rat.num_div_eq_of_coprime positive coprime, Rat.den_div_eq_of_coprime positive coprime⟩

namespace Numeral

theorem ofNumber_injective : Function.Injective ofNumber := by
  intro p q same
  unfold ofNumber at same
  split at same <;> split at same
  · rename_i left right
    exact Rat.ext (integer.inj same) ((beq_iff_eq.mp left).trans (beq_iff_eq.mp right).symm)
  · cases same
  · cases same
  · obtain ⟨above, below⟩ := fraction.inj same
    exact Rat.ext above (by exact_mod_cast below)

theorem ofRatio_eq (n : Int) {d : Int} (nonzero : d ≠ 0) :
    ofRatio n d = .ok (if (lowestTerms n d).2 = 1 then integer (lowestTerms n d).1
      else fraction (lowestTerms n d).1 (lowestTerms n d).2) := by
  rw [ofRatio, if_neg nonzero, apply_ite Except.ok]

/-- Reducing a ratio gives the numeral of its value. -/
theorem ofRatio_eq_ofNumber (n : Int) {d : Int} (nonzero : d ≠ 0) :
    ofRatio n d = .ok (ofNumber (n / d)) := by
  obtain ⟨above, below⟩ := num_den_div n nonzero
  have one : isInteger ((n : Rat) / d) = true ↔ (lowestTerms n d).2 = 1 := by
    rw [← below, isInteger, beq_iff_eq]
    exact Nat.cast_eq_one.symm
  simp only [ofRatio_eq n nonzero, ofNumber, above, below, one]

theorem ofNumber_eq_integer_iff {q : Rat} :
    (∃ k, ofNumber q = integer k) ↔ isInteger q = true := by
  unfold ofNumber
  split
  · rename_i holds
    exact iff_of_true ⟨q.num, rfl⟩ holds
  · rename_i fails
    refine iff_of_false ?_ fails
    rintro ⟨k, same⟩
    cases same

theorem ofNumber_eq_fraction {q : Rat} (fails : ¬ isInteger q = true) :
    ofNumber q = fraction q.num q.den ∧ q.num.gcd q.den = 1 ∧ (1 : Int) < q.den := by
  have other : q.den ≠ 1 := fun one => fails (beq_iff_eq.mpr one)
  have positive := q.den_pos
  exact ⟨if_neg fails, q.reduced, by omega⟩

end Numeral

theorem isInteger_div_iff (n : Int) {d : Int} (nonzero : d ≠ 0) :
    isInteger ((n : Rat) / d) = true ↔ d ∣ n := by
  rw [isInteger, beq_iff_eq, Rat.den_div_intCast_eq_one_iff n d nonzero]

theorem ratio_eq (n : Int) {d : Int} (nonzero : d ≠ 0) : ratio n d = .ok (n / d) := by
  obtain ⟨above, below⟩ := num_den_div n nonzero
  rw [ratio, dif_neg nonzero]
  exact congrArg Except.ok (Rat.ext above.symm (congrArg Int.toNat below).symm)

theorem Slots.get?_step_ratio (slots : Slots) (name : String) (n : Int) {d : Int}
    (nonzero : d ≠ 0) :
    (slots.step (.store name (.constant (.ratio n d)))).1.get? name = some (.number (n / d)) := by
  have value : (Constant.ratio n d).result = .ok (.number (n / d)) := by
    rw [Constant.result, ratio_eq n nonzero]
    rfl
  rw [(slots.step_refines _).1, Contents.step, Operation.evaluate_constant, value]
  exact Function.update_self ..

/-- Numbers have one numeral each. Whatever the signs and the common divisors, ratios have the same
numeral exactly if they are equal; it is that of an integer if the one divides the other and in
lowest terms otherwise, and the same as for the quotient of rational numbers. A slot that is set to
the ratio stores it. -/
theorem Numeral.unique_of_ratio (n n' : Int) {d d' : Int} (nonzero : d ≠ 0) (nonzero' : d' ≠ 0) :
    ∃ numeral numeral', ofRatio n d = .ok numeral ∧ ofRatio n' d' = .ok numeral' ∧
      (numeral = numeral' ↔ n * d' = n' * d) ∧
      ((∃ k, numeral = integer k) ↔ d ∣ n) ∧
      (¬ d ∣ n → ∃ above below,
        numeral = fraction above below ∧ above.gcd below = 1 ∧ 1 < below) ∧
      numeral = ofNumber (n / d) ∧
      ∃ e, Expr.number <$> ratio n d = .ok e ∧ e.numeral? = some numeral ∧
        ∀ slots name,
          (Slots.step slots (.store name (.constant (.ratio n d)))).1.get? name = some e := by
  refine ⟨ofNumber (n / d), ofNumber (n' / d'), ofRatio_eq_ofNumber n nonzero,
    ofRatio_eq_ofNumber n' nonzero', ?_, ?_, fun fails => ?_, rfl, .number (n / d), ?_, rfl,
    fun slots name => slots.get?_step_ratio name n nonzero⟩
  · rw [ofNumber_injective.eq_iff,
      div_eq_div_iff (by exact_mod_cast nonzero) (by exact_mod_cast nonzero')]
    exact_mod_cast Iff.rfl
  · rw [ofNumber_eq_integer_iff, isInteger_div_iff n nonzero]
  · exact ⟨_, _, ofNumber_eq_fraction fun holds => fails ((isInteger_div_iff n nonzero).mp holds)⟩
  · rw [ratio_eq n nonzero]
    rfl

/-- Two ways to write -3/2. -/
theorem Numeral.unique_of_ratio_negative :
    (-4 : Int) ≠ 0 ∧ (2 : Int) ≠ 0 ∧ ofRatio 6 (-4) = .ok (fraction (-3) 2) ∧
      ofRatio 6 (-4) = ofRatio (-3) 2 ∧ ofNumber (6 / -4) = fraction (-3) 2 ∧
      ∃ e, Expr.number <$> ratio 6 (-4) = .ok e ∧ e.numeral? = some (fraction (-3) 2) := by
  have nonzero : (-4 : Int) ≠ 0 := by decide
  have nonzero' : (2 : Int) ≠ 0 := by decide
  have reduced : ofRatio 6 (-4) = .ok (fraction (-3) 2) := by rfl
  obtain ⟨numeral, numeral', left, right, same, _, _, number, e, made, stored, _⟩ :=
    unique_of_ratio 6 (-3) nonzero nonzero'
  obtain rfl : numeral = fraction (-3) 2 := Except.ok.inj (left.symm.trans reduced)
  refine ⟨nonzero, nonzero', reduced, ?_, number.symm, e, made, stored⟩
  rw [left, right, same.mpr (by decide)]

end SymbolicAlgebra
