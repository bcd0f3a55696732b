import SymbolicAlgebra.Proofs.RaisedFactors
import SymbolicAlgebra.Proofs.Raises

namespace SymbolicAlgebra

open SymbolicAlgebra.Expr

namespace Expr

/-- An integer as an exponent; anything else counts as zero. -/
def integerExponent (e : Expr) : Int :=
  e.integer?.getD 0

theorem integerExponent_number (n : Int) : (number n).integerExponent = n := by
  rw [integerExponent, integer?_number]
  rfl

variable {K : Type*} [Field K] (v : Expr → K)

mutual

/-- The value of an expression in a field, if symbols, functions and formal derivatives have the
values that are assigned to them. Exponents have to be integers. -/
def valueAt : Expr → K
  | number q => q
  | symbol name => v (symbol name)
  | sum constant terms => constant + valueOfTermsAt terms
  | product coefficient factors => coefficient * valueOfFactorsAt factors
  | power b e => valueAt b ^ e.integerExponent
  | sin a => v (sin a)
  | cos a => v (cos a)
  | apply name a => v (apply name a)
  | derivative a names => v (derivative a names)

def valueOfTermsAt : List Multiple → K
  | [] => 0
  | (t, q) :: rest => q * valueAt t + valueOfTermsAt rest

def valueOfFactorsAt : List Factor → K
  | [] => 1
  | (b, e) :: rest => valueAt b ^ e.integerExponent * valueOfFactorsAt rest

end

theorem valueOfTermsAt_eq (terms : List Multiple) :
    valueOfTermsAt v terms = combination (valueAt v) terms := by
  induction terms with
  | nil => rw [valueOfTermsAt]; rfl
  | cons head rest ih => rw [valueOfTermsAt, ih, combination_cons]

theorem valueOfFactorsAt_eq (factors : List Factor) : valueOfFactorsAt v factors =
    (factors.map fun factor => factor.1.valueAt v ^ factor.2.integerExponent).prod := by
  induction factors with
  | nil => rw [valueOfFactorsAt]; rfl
  | cons head rest ih => rw [valueOfFactorsAt, ih, List.map_cons, List.prod_cons]

/-- An assignment reads expressions as integer powers of the field. -/
def assigned : Reading K where
  value := valueAt v
  factor factor := factor.1.valueAt v ^ factor.2.integerExponent
  number q := by rw [valueAt]
  sum constant terms := by rw [valueAt, valueOfTermsAt_eq]
  product q factors := by rw [valueAt, valueOfFactorsAt_eq]
  power b e := by rw [valueAt]
  first_power b := by
    rw [← Int.cast_one, integerExponent_number, zpow_one]

/-- All exponents outside of functions and formal derivatives are integers, and no base is zero
where its exponent is negative. -/
structure DefinedAt (e : Expr) : Prop where
  integral : ∀ b x, e.Raises b x → ∃ n : Int, x = Expr.number n
  nonzero : ∀ b (n : Int), e.Raises b (Expr.number n) → n < 0 → b.valueAt v ≠ 0

end Expr

/-- An integer power that is not negative over zero. -/
def IntegerPower {K : Type*} [Field K] (v : Expr → K) (factor : Factor) : Prop :=
  ∃ n : Int, factor.2 = number n ∧ (n < 0 → factor.1.valueAt v ≠ 0)

variable {K : Type*} [Field K] {v : Expr → K}

theorem definedAt_iff_each {e : Expr} : e.DefinedAt v ↔ e.Each (IntegerPower v) := by
  constructor
  · intro defined b x raises
    obtain ⟨n, rfl⟩ := defined.integral b x raises
    exact ⟨n, rfl, defined.nonzero b n raises⟩
  · intro each
    refine ⟨fun b x raises => ?_, fun b n raises negative => ?_⟩
    · obtain ⟨n, integer, _⟩ := each b x raises
      exact ⟨n, integer⟩
    · obtain ⟨m, same, nonzero⟩ := each b _ raises
      obtain rfl : n = m := by exact_mod_cast number.inj same
      exact nonzero negative

theorem integerPower_one (b : Expr) : IntegerPower v (b, number 1) :=
  ⟨1, by simp, fun negative => absurd negative (by decide)⟩

theorem mergeable_integerPower : Mergeable (IntegerPower v) := by
  rintro b _ _ _ _ ⟨m, rfl, defined⟩ ⟨n, rfl, defined'⟩
  refine ⟨m + n, ?_, fun negative => ?_⟩
  · rw [sumOf_numbers, Int.cast_add]
  · by_cases first : m < 0
    · exact defined first
    · exact defined' (by omega)

/-- The exponents of what is raised in an expression, and that of the expression as a factor. -/
theorem Expr.Each.integerPower {e b x : Expr} (each : e.Each (IntegerPower v))
    (member : (b, x) ∈ e.factorPart) : IntegerPower v (b, x) := by
  rcases mem_factorPart_cases member with ⟨q, factors, rfl, stored⟩ | rfl | ⟨rfl, rfl⟩
  · exact (each_product.mp each _ stored).here
  · exact (each_power.mp each).here
  · exact integerPower_one b

/-- A factor of an expression that is not zero is not zero. -/
theorem valueAt_ne_zero_of_factor {e b : Expr} {n : Int}
    (nonzero : e.valueAt v ≠ 0) (zero : n ≠ 0) (member : (b, number n) ∈ e.factorPart) :
    b.valueAt v ≠ 0 := by
  intro vanishes
  refine nonzero (((assigned v).value_factorPart e).trans ?_)
  refine mul_eq_zero_of_right _ (List.prod_eq_zero (List.mem_map.mpr ⟨_, member, ?_⟩))
  change b.valueAt v ^ (number n).integerExponent = 0
  rw [vanishes, integerExponent_number, zero_zpow n zero]

theorem raisingLaws_integerPower : RaisingLaws (IntegerPower v) where
  unit _ := integerPower_one _
  merge := mergeable_integerPower
  inside {b n} canonical each power c f member := by
    obtain ⟨m, same, nonzero⟩ := power
    obtain rfl : n = m := by exact_mod_cast number.inj same
    obtain ⟨m, rfl, defined⟩ := each.integerPower member
    refine ⟨n * m, by rw [scale_number, Int.cast_mul], fun negative => ?_⟩
    -- A positive exponent turns negative under a negative power of the whole, which is not zero.
    rcases mul_neg_iff.mp negative with ⟨_, below⟩ | ⟨below, above⟩
    · exact defined below
    · exact valueAt_ne_zero_of_factor (nonzero below) above.ne' member
  multiple _ _ := integerPower_one _

section Products

variable {operands : List Expr} (canonical : ∀ e ∈ operands, e.Canonical)
  (each : ∀ e ∈ operands, e.Each (IntegerPower v))

include canonical each

/-- Integer exponents stand over bases that cannot be raised inside, so that one pass is enough. -/
theorem canonicalFactor_mergedFactors : ∀ b x, (b, x) ∈ mergedFactors operands →
    CanonicalFactor b x := by
  have free : Mergeable fun factor => IntegerPower v factor ∧ ¬ factor.1.raisesInside = true :=
    fun _ _ _ left right first second =>
      ⟨mergeable_integerPower left right first.1 second.1, first.2⟩
  have every : ∀ factor ∈ operands.flatMap factorPart,
      IntegerPower v factor ∧ ¬ factor.1.raisesInside = true := by
    rintro ⟨b, x⟩ member
    obtain ⟨e, inside, part⟩ := List.mem_flatMap.mp member
    have power := (each e inside).integerPower part
    obtain ⟨n, rfl, _⟩ := id power
    exact ⟨power, not_raisesInside_of_canonicalFactor
      ((canonical e inside).factorPart.2 b _ part).1⟩
  intro b x member
  obtain ⟨⟨n, rfl, _⟩, free⟩ := free.mergedFactors canonical every (b, x) member
  refine canonicalFactor_of_not_raisesInside free ?_
  rintro rfl
  exact (mem_mergedFactors_iff.mp member).2 (by simp)

/-- The value of a product is the product of the values. -/
theorem valueAt_productOf [CharZero K] {r : Expr}
    (found : (productOf operands : Except Error Expr) = .ok r) :
    r.valueAt v = (operands.map (valueAt v)).prod := by
  have add : ∀ ⦃b e f⦄, IntegerPower v (b, e) → IntegerPower v (b, f) →
      (assigned v).factor (b, sumOf [e, f]) =
        (assigned v).factor (b, e) * (assigned v).factor (b, f) := by
    rintro b _ _ ⟨m, rfl, defined⟩ ⟨n, rfl, defined'⟩
    simp only [assigned, sumOf_numbers, ← Int.cast_add, integerExponent_number]
    exact zpow_add_of_defined defined defined'
  have zero (b : Expr) : (assigned v).factor (b, number 0) = 1 := by
    simp only [assigned]
    rw [← Int.cast_zero, integerExponent_number, zpow_zero]
  have every : ∀ factor ∈ operands.flatMap factorPart, IntegerPower v factor := by
    rintro ⟨b, x⟩ member
    obtain ⟨e, inside, part⟩ := List.mem_flatMap.mp member
    exact (each e inside).integerPower part
  have merged := mergeable_integerPower.prod_mergedFactors add zero canonical every
  have values := (assigned v).prod_value operands
  rw [productOf_of_canonicalFactors (canonicalFactor_mergedFactors canonical each)] at found
  refine Eq.trans ?_ values.symm
  rw [← merged, ← Except.ok.inj found]
  split
  · rename_i vanishes
    rw [vanishes, Rat.cast_zero, zero_mul]
    exact ((assigned v).number 0).trans Rat.cast_zero
  · exact (assigned v).value_assembleProduct _ _

end Products

section Powers

variable {b r : Expr} {n : Int}

theorem prod_raisedFactors {factors : List Factor}
    (each : ∀ factor ∈ factors, IntegerPower v factor) :
    ((raisedFactors n factors).map (assigned v).factor).prod =
      (factors.map (assigned v).factor).prod ^ n := by
  induction factors with
  | nil => exact (one_zpow n).symm
  | cons head rest ih =>
    obtain ⟨⟨m, integer, _⟩, later⟩ := List.forall_mem_cons.mp each
    obtain ⟨c, f⟩ := head
    obtain rfl : f = number m := integer
    have raised : raisedFactors n ((c, number m) :: rest) =
        (c, (number m).scale n) :: raisedFactors n rest := rfl
    rw [raised, List.map_cons, List.prod_cons, ih later, List.map_cons, List.prod_cons, mul_zpow]
    simp only [assigned, scale_number, ← Int.cast_mul, integerExponent_number]
    rw [mul_comm n m, zpow_mul]

/-- The value of an integer power is the power of the value. -/
theorem valueAt_powerOf [CharZero K] (canonical : b.Canonical) (each : b.Each (IntegerPower v))
    (nonzero : n ≠ 0)
    (found : (powerOf b (number n) : Except Error Expr) = .ok r) :
    r.valueAt v = b.valueAt v ^ n := by
  have factors : ∀ factor ∈ b.factorPart, IntegerPower v factor := fun factor member =>
    each.integerPower member
  have kept : ∀ c f, (c, f) ∈ b.factorPart → CanonicalFactor c (f.scale n) := by
    intro c f member
    obtain ⟨factor, _, _⟩ := canonical.factorPart.2 c f member
    obtain ⟨m, rfl, _⟩ := each.integerPower member
    have exponent : m ≠ 0 := by
      rintro rfl
      exact factor.exponent (by simp)
    rw [scale_number, ← Int.cast_mul]
    exact canonicalFactor_of_not_raisesInside (not_raisesInside_of_canonicalFactor factor)
      (mul_ne_zero nonzero exponent)
  have base := (assigned v).value_factorPart b
  have whole := (assigned v).value_assembleProduct (b.coefficientPart ^ n)
    (raisedFactors n b.factorPart)
  rw [powerOf_eq_assembleProduct canonical nonzero kept found]
  refine whole.trans (Eq.trans ?_ (congrArg (· ^ n) base.symm))
  rw [prod_raisedFactors factors, Rat.cast_zpow, mul_zpow]

end Powers

end SymbolicAlgebra
