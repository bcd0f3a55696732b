import SymbolicAlgebra.Proofs.Readings

namespace SymbolicAlgebra

open SymbolicAlgebra.Expr

/-- What powers, symbols, functions and formal derivatives stand for in a field. -/
structure Interpretation (K : Type*) where
  pow : K → K → K
  symbol : String → K
  sine : K → K
  cosine : K → K
  function : String → K → K
  derivative : Expr → List String → K

namespace Interpretation

variable {K : Type*} [Field K] (I : Interpretation K)

mutual

/-- The value of an expression: a sum adds its constant to the multiples of its terms, a product
multiplies its coefficient with the powers of its bases. -/
def value : Expr → K
  | number q => q
  | .symbol name => I.symbol name
  | sum constant terms => constant + valueOfTerms terms
  | product coefficient factors => coefficient * valueOfFactors factors
  | power b e => I.pow (value b) (value e)
  | sin a => I.sine (value a)
  | cos a => I.cosine (value a)
  | apply name a => I.function name (value a)
  | .derivative a names => I.derivative a names

def valueOfTerms : List Multiple → K
  | [] => 0
  | (t, q) :: rest => q * value t + valueOfTerms rest

def valueOfFactors : List Factor → K
  | [] => 1
  | (b, e) :: rest => I.pow (value b) (value e) * valueOfFactors rest

end

theorem value_number (q : Rat) : I.value (number q) = q := by
  rw [value]

theorem valueOfTerms_eq (terms : List Multiple) :
    I.valueOfTerms terms = combination I.value terms := by
  induction terms with
  | nil => rw [valueOfTerms]; rfl
  | cons head rest ih => rw [valueOfTerms, ih, combination_cons]

theorem value_sum (constant : Rat) (terms : List Multiple) :
    I.value (sum constant terms) = constant + combination I.value terms := by
  rw [value, valueOfTerms_eq]

theorem value_product (coefficient : Rat) (factors : List Factor) :
    I.value (product coefficient factors) = coefficient * I.valueOfFactors factors := by
  rw [value]

theorem value_power (b e : Expr) : I.value (power b e) = I.pow (I.value b) (I.value e) := by
  rw [value]

theorem valueOfFactors_nil : I.valueOfFactors [] = 1 := by
  rw [valueOfFactors]

theorem valueOfFactors_cons (b e : Expr) (rest : List Factor) :
    I.valueOfFactors ((b, e) :: rest) = I.pow (I.value b) (I.value e) * I.valueOfFactors rest := by
  rw [valueOfFactors]

theorem valueOfFactors_singleton (b e : Expr) :
    I.valueOfFactors [(b, e)] = I.pow (I.value b) (I.value e) := by
  rw [valueOfFactors_cons, valueOfFactors_nil, mul_one]

theorem valueOfFactors_eq (factors : List Factor) : I.valueOfFactors factors =
    (factors.map fun factor => I.pow (I.value factor.1) (I.value factor.2)).prod := by
  induction factors with
  | nil => exact I.valueOfFactors_nil
  | cons head rest ih => rw [I.valueOfFactors_cons, ih, List.map_cons, List.prod_cons]

section FirstPower

variable (pow_one : ∀ b, I.pow b 1 = b)

/-- Where first powers are the bases, expressions can be read by their values. -/
def reading : Reading K where
  value := I.value
  factor factor := I.pow (I.value factor.1) (I.value factor.2)
  number := I.value_number
  sum := I.value_sum
  product q factors := by rw [I.value_product, I.valueOfFactors_eq]
  power := I.value_power
  first_power b := by rw [I.value_number, Rat.cast_one, pow_one]

include pow_one

theorem value_ofFactor (b e : Expr) :
    I.value (ofFactor (b, e)) = I.pow (I.value b) (I.value e) :=
  (I.reading pow_one).value_ofFactor (b, e)

theorem value_withCoefficient (q : Rat) (factors : List Factor) :
    I.value (withCoefficient q factors) = q * I.valueOfFactors factors := by
  rw [valueOfFactors_eq]
  exact (I.reading pow_one).value_withCoefficient q factors

theorem prod_value_partsOf (factors : List Factor) :
    ((partsOf factors).map I.value).prod = I.valueOfFactors factors := by
  rw [valueOfFactors_eq]
  exact (I.reading pow_one).prod_value_partsOf factors

variable [CharZero K]

theorem value_scale (q : Rat) (e : Expr) : I.value (e.scale q) = q * I.value e :=
  (I.reading pow_one).value_scale q e

theorem value_assembleProduct (q : Rat) (factors : List Factor) :
    I.value (assembleProduct q factors) = q * I.valueOfFactors factors := by
  rw [valueOfFactors_eq]
  exact (I.reading pow_one).value_assembleProduct q factors

/-- The value of a sum is the sum of the values. -/
theorem value_sumOf (summands : List Expr) :
    I.value (sumOf summands) = (summands.map I.value).sum :=
  (I.reading pow_one).value_sumOf summands

/-- Operands multiply to their coefficients times their factors. -/
theorem prod_value (operands : List Expr) :
    (operands.map I.value).prod =
      collectCoefficient operands * I.valueOfFactors (operands.flatMap factorPart) := by
  rw [valueOfFactors_eq]
  exact (I.reading pow_one).prod_value operands

end FirstPower

end Interpretation

end SymbolicAlgebra
