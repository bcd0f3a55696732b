import Mathlib.Algebra.MvPolynomial.CommRing
import SymbolicAlgebra.Proofs.VectorSpace

namespace SymbolicAlgebra

open MvPolynomial SymbolicAlgebra.Expr

namespace Expr

/-- Symbols, functions and formal derivatives, whatever they are applied to. -/
def IsIndeterminate : Expr → Prop
  | number _ => False
  | sum _ _ => False
  | product _ _ => False
  | power _ _ => False
  | _ => True

/-- A natural number as an exponent; anything else counts as zero. -/
def natural (e : Expr) : Nat :=
  (e.integer?.getD 0).toNat

mutual

/-- The polynomial that an expression stands for. Functions and formal derivatives are
indeterminates of it just as symbols are. -/
noncomputable def polynomial : Expr → MvPolynomial Expr ℚ
  | number q => C q
  | symbol name => X (symbol name)
  | sum constant terms => C constant + polynomialOfTerms terms
  | product coefficient factors => C coefficient * polynomialOfFactors factors
  | power b e => polynomial b ^ e.natural
  | sin a => X (sin a)
  | cos a => X (cos a)
  | apply name a => X (apply name a)
  | derivative a names => X (derivative a names)

noncomputable def polynomialOfTerms : List Multiple → MvPolynomial Expr ℚ
  | [] => 0
  | (t, q) :: rest => C q * polynomial t + polynomialOfTerms rest

noncomputable def polynomialOfFactors : List Factor → MvPolynomial Expr ℚ
  | [] => 1
  | (b, e) :: rest => polynomial b ^ e.natural * polynomialOfFactors rest

end

/-- Numbers and indeterminates, and sums, products and positive integer powers of polynomials. -/
inductive IsPolynomial : Expr → Prop where
  | number (q) : IsPolynomial (number q)
  | indeterminate {e : Expr} (form : e.IsIndeterminate) : IsPolynomial e
  | sum {constant terms} (each : ∀ t q, (t, q) ∈ terms → IsPolynomial t) :
      IsPolynomial (sum constant terms)
  | product {q factors} (bases : ∀ b e, (b, e) ∈ factors → IsPolynomial b)
      (exponents : ∀ b e, (b, e) ∈ factors → ∃ n : Int, 0 < n ∧ e = Expr.number n) :
      IsPolynomial (product q factors)
  | power {b} {n : Int} (base : IsPolynomial b) (positive : 0 < n) :
      IsPolynomial (power b (Expr.number n))

theorem natural_number (n : Int) : (number n).natural = n.toNat := by
  rw [natural, integer?_number]
  rfl

theorem natural_number_one : (number 1).natural = 1 :=
  natural_number 1

theorem polynomial_number (q : Rat) : (number q).polynomial = C q := by
  rw [polynomial]

theorem polynomial_of_isIndeterminate {e : Expr} (form : e.IsIndeterminate) :
    e.polynomial = X e := by
  cases e <;> first | exact absurd form id | rw [polynomial]

theorem polynomialOfFactors_eq (factors : List Factor) : polynomialOfFactors factors =
    (factors.map fun factor => factor.1.polynomial ^ factor.2.natural).prod := by
  induction factors with
  | nil => rw [polynomialOfFactors]; rfl
  | cons head rest ih => rw [polynomialOfFactors, ih]; rfl

theorem polynomialOfTerms_eq (terms : List Multiple) : polynomialOfTerms terms =
    (terms.map fun multiple => C multiple.2 * multiple.1.polynomial).sum := by
  induction terms with
  | nil => rw [polynomialOfTerms]; rfl
  | cons head rest ih => rw [polynomialOfTerms, ih]; rfl

theorem polynomial_ofFactor (factor : Factor) :
    (ofFactor factor).polynomial = factor.1.polynomial ^ factor.2.natural := by
  unfold ofFactor
  split
  · rename_i one
    rw [isNumber_iff.mp one, natural_number_one, pow_one]
  · rw [polynomial]

theorem polynomialOfFactors_singleton (factor : Factor) :
    polynomialOfFactors [factor] = (ofFactor factor).polynomial := by
  rw [polynomialOfFactors_eq, List.map_singleton, List.prod_singleton, polynomial_ofFactor]

theorem polynomial_withCoefficient (q : Rat) (factors : List Factor) :
    (withCoefficient q factors).polynomial = C q * polynomialOfFactors factors := by
  unfold withCoefficient
  split
  · rename_i zero
    rw [zero, polynomial_number, C_0, zero_mul]
  · split
    · rw [polynomial_number, polynomialOfFactors, mul_one]
    · split
      · rename_i one
        rw [one, C_1, one_mul, polynomialOfFactors_singleton]
      · rw [polynomial]
    · rw [polynomial]

/-- The coefficients of polynomials are combined as the expressions are. -/
theorem coeff_polynomialOfTerms (m : Expr →₀ ℕ) (terms : List Multiple) :
    coeff m (polynomialOfTerms terms) = combination (fun t => coeff m t.polynomial) terms := by
  induction terms with
  | nil => rw [polynomialOfTerms, coeff_zero]; rfl
  | cons head rest ih =>
    rw [polynomialOfTerms, coeff_add, coeff_C_mul, ih, combination_cons, Rat.cast_id]

theorem coeff_polynomial (m : Expr →₀ ℕ) (e : Expr) : coeff m e.polynomial =
    e.constantPart * coeff m 1 + combination (fun t => coeff m t.polynomial) e.termPart := by
  have lone (t : Expr) (q : Rat) :
      combination (fun t => coeff m t.polynomial) [(t, q)] = q * coeff m t.polynomial := by
    rw [combination_cons, Rat.cast_id]
    exact add_zero _
  have bare (constant : e.constantPart = 0) (term : e.termPart = [(e, 1)]) : coeff m e.polynomial =
      e.constantPart * coeff m 1 + combination (fun t => coeff m t.polynomial) e.termPart := by
    rw [constant, term, lone, zero_mul, zero_add, one_mul]
  cases e with
  | number q =>
    rw [polynomial, ← mul_one (C q), coeff_C_mul]
    exact (add_zero _).symm
  | sum constant terms =>
    rw [polynomial, coeff_add, coeff_polynomialOfTerms, ← mul_one (C constant), coeff_C_mul]
    rfl
  | product q factors =>
    have term : (product q factors).termPart = [(withCoefficient 1 factors, q)] := rfl
    have constant : (product q factors).constantPart = 0 := rfl
    rw [polynomial, coeff_C_mul, term, constant, lone, polynomial_withCoefficient, C_1, one_mul,
      zero_mul, zero_add]
  | _ => exact bare rfl rfl

theorem polynomial_scale (q : Rat) {e : Expr} (canonical : e.Canonical) :
    (e.scale q).polynomial = C q * e.polynomial := by
  by_cases zero : q = 0
  · rw [zero, scale_zero, polynomial_number, C_0, zero_mul]
  cases canonical.shape with
  | number r => rw [scale_number, polynomial_number, polynomial_number, C_mul]
  | sum form each =>
    ext m
    rw [scale_sum zero, coeff_C_mul, coeff_polynomial, coeff_polynomial, constantPart, termPart,
      combination_map, constantPart, termPart, Rat.cast_id, mul_add, mul_assoc]
  | multiple nonzero kept =>
    rw [kept.scale_withCoefficient, polynomial_withCoefficient, polynomial_withCoefficient, C_mul,
      mul_assoc]

/-- The polynomial of a sum is the sum of the polynomials. -/
theorem polynomial_sumOf {es : List Expr} (canonical : ∀ e ∈ es, e.Canonical) :
    (sumOf es).polynomial = (es.map polynomial).sum := by
  ext m
  have sums := map_list_sum (coeffAddMonoidHom m) (es.map polynomial)
  have each : es.map (fun e => e.constantPart * coeff m 1 +
      combination (fun t => coeff m t.polynomial) e.termPart) =
      (es.map polynomial).map (coeffAddMonoidHom m) := by
    rw [List.map_map]
    exact List.map_congr_left fun e _ => (coeff_polynomial m e).symm
  rw [coeff_polynomial, combination_sumOf _ _ canonical, each]
  exact sums.symm

end Expr

end SymbolicAlgebra
