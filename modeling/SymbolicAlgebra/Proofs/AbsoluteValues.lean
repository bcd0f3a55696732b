import Mathlib.Algebra.Order.AbsoluteValue.Basic
import SymbolicAlgebra.Proofs.Closure
import SymbolicAlgebra.Proofs.VectorSpace

namespace SymbolicAlgebra

open SymbolicAlgebra.Expr

theorem magnitude_eq_abs (q : Rat) : (if q < 0 then -q else q) = |q| := by
  split
  · rename_i negative
    exact (abs_of_neg negative).symm
  · rename_i nonneg
    exact (abs_of_nonneg (not_lt.mp nonneg)).symm

theorem absolute_number (q : Rat) : absolute (number q) = number |q| :=
  congrArg number (magnitude_eq_abs q)

theorem absoluteTerm_bars (a : Expr) : absoluteTerm (apply "abs" a) = apply "abs" a := by
  simp [absoluteTerm]

theorem exists_absoluteTerm_eq (e : Expr) : ∃ a, absoluteTerm e = apply "abs" a := by
  unfold absoluteTerm
  split
  · rename_i name a
    split
    · rename_i is_abs
      exact ⟨a, congrArg (apply · a) is_abs⟩
    · exact ⟨_, rfl⟩
  · exact ⟨_, rfl⟩

theorem isTerm_absoluteTerm (e : Expr) : (absoluteTerm e).IsTerm := by
  obtain ⟨a, bars⟩ := exists_absoluteTerm_eq e
  rw [bars]
  trivial

theorem absoluteTerm_absoluteTerm (e : Expr) : absoluteTerm (absoluteTerm e) = absoluteTerm e := by
  obtain ⟨a, bars⟩ := exists_absoluteTerm_eq e
  rw [bars, absoluteTerm_bars]

theorem absolute_of_isTerm {t : Expr} (term : t.IsTerm) : absolute t = absoluteTerm t := by
  cases t with
  | number q => exact absurd term id
  | product q factors =>
    obtain rfl : q = 1 := term
    rw [absolute, if_pos rfl]
  | _ => rfl

/-- The coefficient comes out of the bars, whatever the factors are. -/
theorem absolute_withCoefficient {factors : List Factor} (kept : KeptFactors factors) {q : Rat}
    (nonzero : q ≠ 0) :
    absolute (withCoefficient q factors) =
      (absoluteTerm (withCoefficient 1 factors)).scale |q| := by
  by_cases one : q = 1
  · rw [one, abs_one, scale_one]
    exact absolute_of_isTerm kept.isTerm
  · rw [withCoefficient_eq_product nonzero kept.nonempty fun equal => absurd equal one, absolute,
      if_neg one, magnitude_eq_abs]

theorem absolute_scale_of_isTerm {t : Expr} (canonical : t.Canonical) (term : t.IsTerm) (q : Rat) :
    absolute (t.scale q) = (absoluteTerm t).scale |q| := by
  by_cases zero : q = 0
  · rw [zero, scale_zero, abs_zero, scale_zero, absolute_number, abs_zero]
  · rw [scale_eq_withCoefficient canonical term,
      absolute_withCoefficient (canonical.keptFactors term) zero,
      canonical.withCoefficient_factorPart term]

/-- What is no sum is a number or a multiple of a term. -/
theorem number_or_scale_of_not_sum {e : Expr} (canonical : e.Canonical)
    (not_sum : ∀ constant terms, e ≠ sum constant terms) :
    (∃ r, e = number r) ∨ ∃ (t : Expr) (p : Rat), t.Canonical ∧ t.IsTerm ∧ e = t.scale p := by
  cases canonical.shape with
  | number r => exact .inl ⟨r, rfl⟩
  | @sum constant terms form each => exact absurd rfl (not_sum constant terms)
  | @multiple p factors nonzero kept =>
    refine .inr ⟨withCoefficient 1 factors, p, kept.canonical_withCoefficient 1, kept.isTerm, ?_⟩
    rw [kept.scale_withCoefficient, mul_one]

/-- A rational number leaves the bars of anything but a sum as its magnitude. -/
theorem absolute_scale {e : Expr} (canonical : e.Canonical)
    (not_sum : ∀ constant terms, e ≠ sum constant terms) (q : Rat) :
    absolute (e.scale q) = (absolute e).scale |q| := by
  obtain ⟨r, rfl⟩ | ⟨t, p, canonical_term, term, rfl⟩ :=
    number_or_scale_of_not_sum canonical not_sum
  · rw [scale_number, absolute_number, absolute_number, scale_number, abs_mul]
  · rw [scale_scale q p canonical_term, absolute_scale_of_isTerm canonical_term term,
      absolute_scale_of_isTerm canonical_term term,
      scale_scale |q| |p| (canonical_absoluteTerm canonical_term), abs_mul]

theorem absolute_negate {e : Expr} (canonical : e.Canonical)
    (not_sum : ∀ constant terms, e ≠ sum constant terms) : absolute e.negate = absolute e := by
  rw [negate, absolute_scale canonical not_sum, abs_neg, abs_one, scale_one]

theorem absolute_absolute {e : Expr} (canonical : e.Canonical) :
    absolute (absolute e) = absolute e := by
  have of_term {t : Expr} (canonical_term : t.Canonical) (q : Rat) :
      absolute ((absoluteTerm t).scale |q|) = (absoluteTerm t).scale |q| := by
    rw [absolute_scale_of_isTerm (canonical_absoluteTerm canonical_term) (isTerm_absoluteTerm t),
      absoluteTerm_absoluteTerm, abs_abs]
  cases canonical.shape with
  | number q => rw [absolute_number, absolute_number, abs_abs]
  | @sum constant terms form each =>
    have whole : absolute (sum constant terms) = absoluteTerm (sum constant terms) := rfl
    rw [whole, absolute_of_isTerm (isTerm_absoluteTerm _), absoluteTerm_absoluteTerm]
  | multiple nonzero kept =>
    rw [absolute_withCoefficient kept nonzero]
    exact of_term (kept.canonical_withCoefficient 1) _

/-- The absolute value of an absolute value is that value itself. Unless the expression is a sum, a
rational factor leaves the bars as its own absolute value, and so the sign has no part in it. -/
theorem absolute_laws {e : Expr} (canonical : e.Canonical) :
    absolute (absolute e) = absolute e ∧
      ((∀ constant terms, e ≠ sum constant terms) →
        (∀ q, ∃ p, (productOf [number q, e] : Except Error Expr) = .ok p ∧
          (productOf [number |q|, absolute e] : Except Error Expr) = .ok (absolute p)) ∧
        absolute e.negate = absolute e) := by
  refine ⟨absolute_absolute canonical, fun not_sum =>
    ⟨fun q => ⟨e.scale q, productOf_number q canonical, ?_⟩, absolute_negate canonical not_sum⟩⟩
  rw [absolute_scale canonical not_sum q]
  exact productOf_number |q| (canonical_absolute canonical)

/-- A third of `-3*abs(x)`, where the coefficient goes and the bars are there already. -/
theorem absolute_laws_bars :
    absolute (product (-3) [(apply "abs" (symbol "x"), number 1)]) =
        product 3 [(apply "abs" (symbol "x"), number 1)] ∧
      absolute (absolute (product (-3) [(apply "abs" (symbol "x"), number 1)])) =
        absolute (product (-3) [(apply "abs" (symbol "x"), number 1)]) ∧
      (productOf [number |1 / 3|, absolute (product (-3) [(apply "abs" (symbol "x"), number 1)])] :
        Except Error Expr) = .ok (apply "abs" (symbol "x")) := by
  have canonical : (product (-3) [(apply "abs" (symbol "x"), number 1)]).Canonical :=
    @canonical_productOf [number (-3), apply "abs" (symbol "x")] _ (by cbv)
      (canonical_pair (canonical_number (-3)) (.apply (.symbol "x")))
  obtain ⟨again, coefficients⟩ := absolute_laws canonical
  obtain ⟨p, multiple, magnitude⟩ := (coefficients (by simp)).1 (1 / 3)
  have scaled : (product (-3) [(apply "abs" (symbol "x"), number 1)]).scale (1 / 3) =
      product (-1) [(apply "abs" (symbol "x"), number 1)] := by
    have third : (1 / 3 : Rat) * (-3) = -1 := by norm_num
    rw [scale, if_neg (by norm_num), if_neg (by norm_num), third]
    cbv
  obtain rfl := Except.ok.inj ((productOf_number (1 / 3) canonical).symm.trans multiple)
  rw [scaled] at magnitude
  have three : absolute (product (-3) [(apply "abs" (symbol "x"), number 1)]) =
      product 3 [(apply "abs" (symbol "x"), number 1)] := by
    rw [absolute, if_neg (by decide), if_pos (by decide)]
    cbv
  have one : absolute (product (-1) [(apply "abs" (symbol "x"), number 1)]) =
      apply "abs" (symbol "x") := by
    rw [absolute, if_neg (by decide), if_pos (by decide)]
    cbv
  exact ⟨three, again, magnitude.trans (congrArg Except.ok one)⟩

end SymbolicAlgebra
