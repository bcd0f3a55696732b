import SymbolicAlgebra.Proofs.Meaning
import SymbolicAlgebra.Proofs.MergedTotals

namespace SymbolicAlgebra

open SymbolicAlgebra.Expr SymbolicAlgebra.Interpretation

/-- Rational values for the symbols, and functions for the sine and the cosine. -/
structure Point where
  symbol : String → Rat
  sine : Rat → Rat
  cosine : Rat → Rat

/-- Powers with integer exponents are those of the rational numbers. No other powers, no unknown
functions and no formal derivatives have a meaning at a point. -/
def Point.interpretation (p : Point) : Interpretation Rat where
  pow b e := b ^ e.num
  symbol := p.symbol
  sine := p.sine
  cosine := p.cosine
  function _ _ := 0
  derivative _ _ := 0

abbrev Point.value (p : Point) (e : Expr) : Rat :=
  p.interpretation.value e

/-- An expression of numbers, symbols, sums, products, sines, cosines and powers, all of whose
exponents are integers, and none is negative over a base that is zero at the point. -/
inductive Regular (p : Point) : Expr → Prop where
  | number (q) : Regular p (number q)
  | symbol (name) : Regular p (symbol name)
  | sum {constant terms} (terms_regular : ∀ t q, (t, q) ∈ terms → Regular p t) :
      Regular p (sum constant terms)
  | product {coefficient factors} (bases_regular : ∀ b e, (b, e) ∈ factors → Regular p b)
      (exponents : ∀ b e, (b, e) ∈ factors →
        ∃ n : Int, e = number n ∧ (n < 0 → p.value b ≠ 0)) :
      Regular p (product coefficient factors)
  | power {b} {n : Int} (base_regular : Regular p b) (defined : n < 0 → p.value b ≠ 0) :
      Regular p (power b (number n))
  | sin {a} (argument_regular : Regular p a) : Regular p (sin a)
  | cos {a} (argument_regular : Regular p a) : Regular p (cos a)

/-- A base that can be raised to an integer exponent at the point. -/
structure RegularPower (p : Point) (b e : Expr) : Prop where
  base : Regular p b
  exponent : ∃ n : Int, e = number n ∧ (n < 0 → p.value b ≠ 0)

variable {p : Point}

theorem regularPower_one {b : Expr} (regular : Regular p b) : RegularPower p b (number 1) :=
  ⟨regular, 1, by simp, fun negative => absurd negative (by decide)⟩

theorem Regular.factorPart {e : Expr} (regular : Regular p e) :
    ∀ b x, (b, x) ∈ e.factorPart → RegularPower p b x := by
  intro b x member
  rcases mem_factorPart_cases member with ⟨q, factors, rfl, stored⟩ | rfl | ⟨rfl, rfl⟩
  · cases regular with
    | product bases exponents => exact ⟨bases b x stored, exponents b x stored⟩
  · cases regular with
    | power base defined => exact ⟨base, _, rfl, defined⟩
  · exact regularPower_one regular

theorem RegularPower.ofFactor {b e : Expr} (regular : RegularPower p b e) :
    Regular p (ofFactor (b, e)) := by
  obtain ⟨base, n, rfl, defined⟩ := regular
  unfold Expr.ofFactor
  split
  · exact base
  · exact .power base defined

theorem regular_product {coefficient : Rat} {factors : List Factor}
    (each : ∀ b e, (b, e) ∈ factors → RegularPower p b e) :
    Regular p (product coefficient factors) :=
  .product (fun b e member => (each b e member).base) fun b e member => (each b e member).exponent

theorem regular_withCoefficient (q : Rat) {factors : List Factor}
    (each : ∀ b e, (b, e) ∈ factors → RegularPower p b e) :
    Regular p (withCoefficient q factors) := by
  unfold withCoefficient
  split
  · exact .number 0
  · split
    · exact .number q
    · rename_i factor
      split
      · exact (each factor.1 factor.2 (List.mem_singleton_self _)).ofFactor
      · exact regular_product each
    · exact regular_product each

theorem Regular.toFactor {e : Expr} (regular : Regular p e) :
    RegularPower p e.toFactor.1 e.toFactor.2 := by
  cases regular with
  | power base defined => exact ⟨base, _, rfl, defined⟩
  | number q => exact regularPower_one (.number q)
  | product bases exponents => exact regularPower_one (.product bases exponents)
  | symbol name => exact regularPower_one (.symbol name)
  | sum terms => exact regularPower_one (.sum terms)
  | sin argument => exact regularPower_one (.sin argument)
  | cos argument => exact regularPower_one (.cos argument)

theorem Regular.scale {e : Expr} (regular : Regular p e) (q : Rat) : Regular p (e.scale q) := by
  have whole := regular.toFactor
  unfold Expr.scale
  split
  · exact .number 0
  split
  · exact regular
  split
  · exact .number _
  · cases regular with
    | sum terms =>
      refine .sum fun t r member => ?_
      obtain ⟨⟨_, s⟩, inside, same⟩ := List.mem_map.mp member
      cases same
      exact terms t s inside
  · exact regular_withCoefficient _ regular.factorPart
  · refine regular_withCoefficient q fun b x member => ?_
    rw [← List.mem_singleton.mp member] at whole
    exact whole

theorem Regular.termPart {e : Expr} (regular : Regular p e) :
    ∀ t q, (t, q) ∈ e.termPart → Regular p t := by
  intro t q member
  cases e with
  | number q => cases member
  | sum constant terms =>
    cases regular with
    | sum each => exact each t q member
  | product coefficient factors =>
    cases List.mem_singleton.mp member
    exact regular_withCoefficient 1 regular.factorPart
  | _ =>
    cases List.mem_singleton.mp member
    exact regular

theorem regular_sumOf {summands : List Expr} (regular : ∀ e ∈ summands, Regular p e) :
    Regular p (sumOf summands) := by
  have terms : ∀ t q, (t, q) ∈ (LinearForm.ofSummands summands).terms → Regular p t := by
    intro t q member
    obtain ⟨r, inside⟩ := mem_of_mem_collectTerms member
    obtain ⟨e, summand, part⟩ := List.mem_flatMap.mp inside
    exact (regular e summand).termPart t r part
  unfold sumOf LinearForm.toExpr
  split
  · exact .number _
  · rename_i t q lone
    split
    · refine Regular.scale (terms t q ?_) q
      rw [lone]
      exact List.mem_singleton_self _
    · rw [lone] at terms
      exact .sum terms
  · exact .sum terms

theorem regular_assembleProduct (q : Rat) {factors : List Factor}
    (each : ∀ b e, (b, e) ∈ factors → RegularPower p b e) :
    Regular p (assembleProduct q factors) := by
  unfold assembleProduct
  split
  · exact .number q
  · rename_i b e
    have lone := each b e (List.mem_singleton_self _)
    split
    · exact lone.ofFactor
    split
    · exact lone.base.scale q
    · exact regular_product each
  · exact regular_product each

theorem Point.value_number (p : Point) (q : Rat) : p.value (number q) = q :=
  (p.interpretation.value_number q).trans (Rat.cast_id q)

theorem Point.pow_integer (p : Point) (b : Rat) (n : Int) : p.interpretation.pow b n = b ^ n := by
  change b ^ (n : Rat).num = b ^ n
  rw [Rat.num_intCast]

theorem Point.pow_number (p : Point) (b : Rat) (n : Int) :
    p.interpretation.pow b (p.interpretation.value (number n)) = b ^ n := by
  rw [p.interpretation.value_number, Rat.cast_id, p.pow_integer]

theorem Point.pow_one (p : Point) (b : Rat) : p.interpretation.pow b 1 = b :=
  zpow_one b

/-- A canonical expression that is regular at the point. -/
structure Smooth (p : Point) (e : Expr) : Prop where
  canonical : e.Canonical
  regular : Regular p e

/-- A factor of an expression that is regular at the point. Its base cannot be raised inside. -/
structure SmoothFactor (p : Point) (b e : Expr) : Prop where
  base : Smooth p b
  free : ¬ b.raisesInside = true
  exponent : ∃ n : Int, e = number n ∧ (n < 0 → p.value b ≠ 0)

def SmoothFactors (p : Point) (factors : List Factor) : Prop :=
  ∀ b e, (b, e) ∈ factors → SmoothFactor p b e

variable {p : Point}

theorem SmoothFactor.regularPower {b e : Expr} (smooth : SmoothFactor p b e) :
    RegularPower p b e :=
  ⟨smooth.base.regular, smooth.exponent⟩

/-- An integer exponent is left standing only over a base that cannot be raised inside. -/
theorem not_raisesInside_of_canonicalFactor {b : Expr} {n : Int}
    (factor : CanonicalFactor b (number n)) : ¬ b.raisesInside = true := by
  rcases canonicalFactor_iff.mp factor with ⟨_, free⟩ | canonical
  · exact free
  · intro folds
    have fractional := canonical.fractional_over_folding folds
    rw [integer?_number] at fractional
    cases fractional

theorem canonicalFactor_of_not_raisesInside {b : Expr} {n : Int} (free : ¬ b.raisesInside = true)
    (zero : n ≠ 0) : CanonicalFactor b (number n) :=
  canonicalFactor_of_free free fun equal => zero (by exact_mod_cast number.inj equal)

theorem Smooth.factorPart {e : Expr} (smooth : Smooth p e) : SmoothFactors p e.factorPart := by
  intro b x member
  obtain ⟨factor, base, _⟩ := smooth.canonical.factorPart.2 b x member
  obtain ⟨regular, n, rfl, defined⟩ := smooth.regular.factorPart b x member
  exact ⟨⟨base, regular⟩, not_raisesInside_of_canonicalFactor factor, n, rfl, defined⟩

/-- Exponents of one base add up as long as none of them is negative over zero. -/
theorem zpow_add_of_defined {K : Type*} [Field K] {v : K} {m n : Int} (first : m < 0 → v ≠ 0)
    (second : n < 0 → v ≠ 0) : v ^ (m + n) = v ^ m * v ^ n := by
  by_cases zero : v = 0
  · obtain ⟨k, rfl⟩ := Int.eq_ofNat_of_zero_le (not_lt.mp fun negative => first negative zero)
    obtain ⟨l, rfl⟩ := Int.eq_ofNat_of_zero_le (not_lt.mp fun negative => second negative zero)
    rw [← Nat.cast_add, zpow_natCast, zpow_natCast, zpow_natCast, pow_add]
  · exact zpow_add₀ zero m n

section Merging

variable {b e f : Expr}

theorem SmoothFactor.merge (first : SmoothFactor p b e) (second : SmoothFactor p b f) :
    SmoothFactor p b (sumOf [e, f]) := by
  obtain ⟨base, free, m, rfl, defined⟩ := first
  obtain ⟨_, _, n, rfl, defined'⟩ := second
  refine ⟨base, free, m + n, ?_, fun negative => ?_⟩
  · rw [sumOf_numbers, Int.cast_add]
  · by_cases first : m < 0
    · exact defined first
    · exact defined' (by omega)

theorem SmoothFactor.pow_merge (first : SmoothFactor p b e) (second : SmoothFactor p b f) :
    p.interpretation.pow (p.value b) (p.value (sumOf [e, f])) =
      p.interpretation.pow (p.value b) (p.value e) *
        p.interpretation.pow (p.value b) (p.value f) := by
  obtain ⟨_, _, m, rfl, defined⟩ := first
  obtain ⟨_, _, n, rfl, defined'⟩ := second
  rw [sumOf_numbers, ← Int.cast_add]
  simp only [p.value_number, p.pow_integer]
  exact zpow_add_of_defined defined defined'

end Merging

theorem smoothFactors_iff_forall {factors : List Factor} : SmoothFactors p factors ↔
    ∀ factor ∈ factors, SmoothFactor p factor.1 factor.2 := by
  simp only [Prod.forall, SmoothFactors]

theorem mergeable_smoothFactor : Mergeable fun factor => SmoothFactor p factor.1 factor.2 :=
  fun _ _ _ _ _ first second => first.merge second

section Operands

variable {operands : List Expr} (smooth : ∀ e ∈ operands, Smooth p e)

include smooth

theorem smoothFactors_factorParts : SmoothFactors p (operands.flatMap factorPart) := by
  intro b x member
  obtain ⟨e, inside, part⟩ := List.mem_flatMap.mp member
  exact (smooth e inside).factorPart b x part

theorem smoothFactors_mergedFactors : SmoothFactors p (mergedFactors operands) := by
  have canonical : ∀ e ∈ operands, e.Canonical := fun e member => (smooth e member).canonical
  have every := smoothFactors_iff_forall.mp (smoothFactors_factorParts smooth)
  exact smoothFactors_iff_forall.mpr (mergeable_smoothFactor.mergedFactors canonical every)

/-- Exponents of one base add up, and those that cancelled leave out a factor of one. -/
theorem valueOfFactors_mergedFactors : p.interpretation.valueOfFactors (mergedFactors operands) =
    p.interpretation.valueOfFactors (operands.flatMap factorPart) := by
  have canonical : ∀ e ∈ operands, e.Canonical := fun e member => (smooth e member).canonical
  have every := smoothFactors_iff_forall.mp (smoothFactors_factorParts smooth)
  have zero (b : Expr) : p.interpretation.pow (p.value b) (p.value (number 0)) = 1 := by
    rw [p.value_number]
    exact zpow_zero _
  rw [valueOfFactors_eq, valueOfFactors_eq]
  exact mergeable_smoothFactor.prod_mergedFactors (fun _ _ _ first second => first.pow_merge second)
    zero canonical every

theorem productOf_of_smooth : (productOf operands : Except Error Expr) =
    .ok (if collectCoefficient operands = 0 then number 0
      else assembleProduct (collectCoefficient operands) (mergedFactors operands)) := by
  refine productOf_of_canonicalFactors fun b e member => ?_
  obtain ⟨_, free, n, rfl, _⟩ := smoothFactors_mergedFactors smooth b e member
  refine canonicalFactor_of_not_raisesInside free ?_
  rintro rfl
  exact (mem_mergedFactors_iff.mp member).2 (by simp)

/-- The product of smooth expressions is found, is smooth, and has the product of their values. -/
theorem exists_productOf_of_smooth : ∃ r, (productOf operands : Except Error Expr) = .ok r ∧
    Smooth p r ∧ p.value r = (operands.map p.value).prod := by
  have found := productOf_of_smooth smooth
  have canonical := canonical_productOf found fun e member => (smooth e member).canonical
  refine ⟨_, found, ⟨canonical, ?_⟩, ?_⟩
  · split
    · exact .number 0
    · exact regular_assembleProduct _ fun b e member =>
        (smoothFactors_mergedFactors smooth b e member).regularPower
  · rw [p.interpretation.prod_value p.pow_one, ← valueOfFactors_mergedFactors smooth]
    split
    · rename_i zero
      rw [p.value_number, zero, Rat.cast_zero, zero_mul]
    · exact p.interpretation.value_assembleProduct p.pow_one _ _

theorem smooth_sumOf : Smooth p (sumOf operands) :=
  ⟨canonical_sumOf fun e member => (smooth e member).canonical,
    regular_sumOf fun e member => (smooth e member).regular⟩

end Operands

theorem Point.value_sumOf (p : Point) (summands : List Expr) :
    p.value (sumOf summands) = (summands.map p.value).sum :=
  p.interpretation.value_sumOf p.pow_one summands

theorem Smooth.scale {e : Expr} (smooth : Smooth p e) (q : Rat) : Smooth p (e.scale q) :=
  ⟨smooth.canonical.scale q, smooth.regular.scale q⟩

theorem Point.value_scale (p : Point) (q : Rat) (e : Expr) :
    p.value (e.scale q) = q * p.value e :=
  p.interpretation.value_scale p.pow_one q e

/-- Raising a base that cannot be raised inside to an integer where this is defined. -/
theorem exists_powerOf_of_smooth {b : Expr} {n : Int} (base : Smooth p b)
    (free : ¬ b.raisesInside = true) (defined : n < 0 → p.value b ≠ 0) :
    ∃ r, (powerOf b (number n) : Except Error Expr) = .ok r ∧ Smooth p r ∧
      p.value r = p.value b ^ n := by
  have nonzero : b ≠ number 0 := by
    rintro rfl
    exact free rfl
  by_cases zero : n = 0
  · subst zero
    refine ⟨number 1, ?_, ⟨canonical_number 1, .number 1⟩, ?_⟩
    · simpa using powerOf_exponent_zero nonzero
    · rw [p.value_number, zpow_zero]
  · have factor := canonicalFactor_of_not_raisesInside free zero
    have power : RegularPower p b (number n) := ⟨base.regular, n, rfl, defined⟩
    refine ⟨_, powerOf_of_canonicalFactor factor,
      ⟨canonical_ofFactor factor base.canonical (canonical_number _), power.ofFactor⟩, ?_⟩
    rw [Point.value, p.interpretation.value_ofFactor p.pow_one, p.pow_number]

end SymbolicAlgebra
