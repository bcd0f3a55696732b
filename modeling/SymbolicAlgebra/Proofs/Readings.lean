import Mathlib.Algebra.BigOperators.Group.List.Lemmas
import Mathlib.Data.Rat.Cast.Lemmas
import SymbolicAlgebra.Arithmetic
import SymbolicAlgebra.Proofs.LinearForm

namespace SymbolicAlgebra

open SymbolicAlgebra.Expr

/-- A value in a field for every expression and for every base with an exponent, by which sums are
added and products multiplied. What a power or a function is worth is left open. -/
structure Reading (K : Type*) [Field K] where
  value : Expr → K
  factor : Factor → K
  number : ∀ q, value (number q) = q
  sum : ∀ constant terms, value (sum constant terms) = constant + combination value terms
  product : ∀ q factors, value (product q factors) = q * (factors.map factor).prod
  power : ∀ b e, value (power b e) = factor (b, e)
  first_power : ∀ b, factor (b, Expr.number 1) = value b

namespace Reading

variable {K : Type*} [Field K] (R : Reading K)

theorem value_ofFactor (factor : Factor) : R.value (ofFactor factor) = R.factor factor := by
  obtain ⟨b, e⟩ := factor
  unfold ofFactor
  split
  · rename_i one
    obtain rfl := isNumber_iff.mp one
    exact (R.first_power b).symm
  · exact R.power b e

theorem factor_toFactor (e : Expr) : R.factor e.toFactor = R.value e := by
  cases e with
  | power b x => exact (R.power b x).symm
  | _ => exact R.first_power _

theorem value_withCoefficient (q : Rat) (factors : List Factor) :
    R.value (withCoefficient q factors) = q * (factors.map R.factor).prod := by
  unfold withCoefficient
  split
  · rename_i zero
    rw [zero, R.number, Rat.cast_zero, zero_mul]
  · split
    · rw [R.number]
      exact (mul_one _).symm
    · split
      · rename_i one
        rw [one, R.value_ofFactor, List.map_singleton, List.prod_singleton, Rat.cast_one, one_mul]
      · rw [R.product]
    · rw [R.product]

theorem prod_value_partsOf (factors : List Factor) :
    ((partsOf factors).map R.value).prod = (factors.map R.factor).prod := by
  rw [partsOf, List.map_map]
  exact congrArg List.prod (List.map_congr_left fun factor _ => R.value_ofFactor factor)

/-- An expression has the value of the form in which it enters a sum. -/
theorem value_linearForm (e : Expr) :
    R.value e = e.constantPart + combination R.value e.termPart := by
  have single (t : Expr) (q : Rat) : combination R.value [(t, q)] = q * R.value t := add_zero _
  have bare (constant : e.constantPart = 0) (term : e.termPart = [(e, 1)]) :
      R.value e = e.constantPart + combination R.value e.termPart := by
    rw [constant, term, single, Rat.cast_zero, Rat.cast_one, one_mul, zero_add]
  cases e with
  | number q =>
    rw [R.number]
    exact (add_zero _).symm
  | sum constant terms => exact R.sum constant terms
  | product q factors =>
    have term : (Expr.product q factors).termPart = [(withCoefficient 1 factors, q)] := rfl
    have constant : (Expr.product q factors).constantPart = 0 := rfl
    rw [R.product, term, constant, single, R.value_withCoefficient, Rat.cast_one, one_mul,
      Rat.cast_zero, zero_add]
  | _ => exact bare rfl rfl

theorem value_factorPart (e : Expr) :
    R.value e = e.coefficientPart * (e.factorPart.map R.factor).prod := by
  have bare (coefficient : e.coefficientPart = 1) (factors : e.factorPart = [e.toFactor]) :
      R.value e = e.coefficientPart * (e.factorPart.map R.factor).prod := by
    rw [coefficient, factors, List.map_singleton, List.prod_singleton, R.factor_toFactor,
      Rat.cast_one, one_mul]
  cases e with
  | number q =>
    rw [R.number]
    exact (mul_one _).symm
  | product q factors => exact R.product q factors
  | _ => exact bare rfl rfl

/-- Operands multiply to their coefficients times their factors. -/
theorem prod_value [CharZero K] (operands : List Expr) :
    (operands.map R.value).prod =
      collectCoefficient operands * ((operands.flatMap factorPart).map R.factor).prod := by
  induction operands with
  | nil =>
    have one : collectCoefficient [] = 1 := rfl
    rw [one, Rat.cast_one, one_mul]
    rfl
  | cons e rest ih =>
    have coefficient : collectCoefficient (e :: rest) =
        e.coefficientPart * collectCoefficient rest := rfl
    rw [List.map_cons, List.prod_cons, ih, R.value_factorPart e, coefficient, Rat.cast_mul,
      List.flatMap_cons, List.map_append, List.prod_append]
    exact mul_mul_mul_comm ..

variable [CharZero K]

theorem value_scale (q : Rat) (e : Expr) : R.value (e.scale q) = q * R.value e := by
  have bare (shape : e.scale q = withCoefficient q [e.toFactor]) :
      R.value (e.scale q) = q * R.value e := by
    rw [shape, R.value_withCoefficient, List.map_singleton, List.prod_singleton, R.factor_toFactor]
  by_cases zero : q = 0
  · rw [zero, scale_zero, R.number, Rat.cast_zero, zero_mul]
  · by_cases one : q = 1
    · rw [one, scale_one, Rat.cast_one, one_mul]
    · cases e with
      | number r => rw [scale_number, R.number, R.number, Rat.cast_mul]
      | sum constant terms =>
        rw [scale_sum zero, R.sum, R.sum, combination_map, Rat.cast_mul, mul_add]
      | product r factors =>
        have scaled : (Expr.product r factors).scale q = withCoefficient (q * r) factors := by
          unfold scale
          rw [if_neg zero, if_neg one]
        rw [scaled, R.value_withCoefficient, R.product, Rat.cast_mul, mul_assoc]
      | _ =>
        refine bare ?_
        unfold scale
        rw [if_neg zero, if_neg one]

theorem value_assembleProduct (q : Rat) (factors : List Factor) :
    R.value (assembleProduct q factors) = q * (factors.map R.factor).prod := by
  unfold assembleProduct
  split
  · rw [R.number]
    exact (mul_one _).symm
  · rename_i b e
    split
    · rename_i one
      rw [one, R.value_ofFactor, List.map_singleton, List.prod_singleton, Rat.cast_one, one_mul]
    · split
      · rename_i constant terms exponent
        obtain rfl := isNumber_iff.mp exponent
        rw [R.value_scale, List.map_singleton, List.prod_singleton, R.first_power]
      · rw [R.product]
  · rw [R.product]

theorem value_toExpr (form : LinearForm) :
    R.value form.toExpr = form.constant + combination R.value form.terms := by
  unfold LinearForm.toExpr
  split
  · rename_i none
    rw [none, R.number]
    exact (add_zero _).symm
  · rename_i t q lone
    rw [lone]
    split
    · rename_i zero
      rw [zero, R.value_scale, combination_cons, Rat.cast_zero, zero_add]
      exact (add_zero _).symm
    · rw [R.sum]
  · rw [R.sum]

/-- The value of a sum is the sum of the values. -/
theorem value_sumOf (summands : List Expr) :
    R.value (sumOf summands) = (summands.map R.value).sum := by
  have parts : (LinearForm.ofSummands summands).constant +
      combination R.value (summands.flatMap termPart) = (summands.map R.value).sum := by
    induction summands with
    | nil =>
      have zero : (LinearForm.ofSummands []).constant = 0 := rfl
      rw [zero, Rat.cast_zero, zero_add]
      rfl
    | cons e rest ih =>
      have constant : (LinearForm.ofSummands (e :: rest)).constant =
          e.constantPart + (LinearForm.ofSummands rest).constant := rfl
      rw [List.map_cons, List.sum_cons, ← ih, R.value_linearForm e, constant, Rat.cast_add,
        List.flatMap_cons, combination_append]
      exact add_add_add_comm ..
  have collected : combination R.value (LinearForm.ofSummands summands).terms =
      combination R.value (summands.flatMap termPart) :=
    combination_collectTerms R.value _
  rw [sumOf, R.value_toExpr, collected, parts]

end Reading

end SymbolicAlgebra
