import SymbolicAlgebra.Proofs.Calculation
import SymbolicAlgebra.Proofs.Grouping

namespace SymbolicAlgebra

open SymbolicAlgebra.Expr

/-- Factors with all exponents multiplied by an integer. -/
def raisedFactors (n : Int) (factors : List Factor) : List Factor :=
  factors.map fun factor => (factor.1, factor.2.scale n)

theorem mem_raisedFactors_iff {n : Int} {factors : List Factor} {b e : Expr} :
    (b, e) ∈ raisedFactors n factors ↔ ∃ f, (b, f) ∈ factors ∧ f.scale n = e := by
  simp only [raisedFactors, List.mem_map, Prod.exists, Prod.mk.injEq]
  constructor
  · rintro ⟨c, f, stored, rfl, raised⟩
    exact ⟨f, stored, raised⟩
  · rintro ⟨f, stored, raised⟩
    exact ⟨b, f, stored, rfl, raised⟩

theorem raisedFactors_one (factors : List Factor) : raisedFactors 1 factors = factors := by
  simp [raisedFactors, scale_one]

theorem Collected.raisedFactors {factors : List Factor} (collected : Collected factors) (n : Int) :
    Collected (raisedFactors n factors) where
  increasing := List.pairwise_map.mpr collected.increasing
  bases_canonical b e member := by
    obtain ⟨f, stored, _⟩ := mem_raisedFactors_iff.mp member
    exact collected.bases_canonical b f stored
  exponents_canonical b e member := by
    obtain ⟨f, stored, rfl⟩ := mem_raisedFactors_iff.mp member
    exact (collected.exponents_canonical b f stored).scale n

theorem assembleProduct_self {e : Expr} (canonical : e.Canonical) :
    assembleProduct e.coefficientPart e.factorPart = e := by
  by_cases zero : e.coefficientPart = 0
  · rw [eq_zero_of_coefficientPart canonical zero]
    rfl
  · have whole := assembleProduct_factorPart (q := 1) canonical (by rwa [one_mul])
    rwa [one_mul, scale_one] at whole

/-- Multiplied exponents have multiplied coordinates. -/
theorem exponentCoordinate_raisedFactors (k : Option Expr) (b : Expr) (n : Int)
    {factors : List Factor} (exponents : ∀ c e, (c, e) ∈ factors → e.Canonical) :
    exponentCoordinate k b (raisedFactors n factors) = n * exponentCoordinate k b factors := by
  induction factors with
  | nil => exact (mul_zero _).symm
  | cons head rest ih =>
    obtain ⟨c, e⟩ := head
    have tail := ih fun d f stored => exponents d f (List.mem_cons_of_mem _ stored)
    have first := coordinate_scale (exponents c e (List.mem_cons_self ..)) n k
    have raised : raisedFactors n ((c, e) :: rest) = (c, e.scale n) :: raisedFactors n rest := rfl
    rw [raised, exponentCoordinate_cons, exponentCoordinate_cons, tail, first, mul_add, mul_ite,
      mul_zero]

section Powers

variable {n : Int} {factors : List Factor}

theorem powersOf_of_canonicalFactors
    (exponents : ∀ b e, (b, e) ∈ factors → e.Canonical)
    (each : ∀ b e, (b, e) ∈ factors → CanonicalFactor b (e.scale n)) :
    (powersOf factors n : Except Error (List Expr)) = .ok (partsOf (raisedFactors n factors)) := by
  induction factors with
  | nil => exact powersOf_nil n
  | cons head rest ih =>
    obtain ⟨b, e⟩ := head
    have scaled := productOf_number_right n (exponents b e (List.mem_cons_self ..))
    have raised := powerOf_of_canonicalFactor (each b e (List.mem_cons_self ..))
    have later := ih (fun c f stored => exponents c f (List.mem_cons_of_mem _ stored))
      fun c f stored => each c f (List.mem_cons_of_mem _ stored)
    rw [powersOf_cons, scaled]
    exact bind_eq_ok_iff.mpr ⟨_, rfl, bind_eq_ok_iff.mpr ⟨_, raised,
      bind_eq_ok_iff.mpr ⟨_, later, rfl⟩⟩⟩

theorem integerPower_eq_ok {v r : Rat} (found : integerPower v n = .ok r) : r = v ^ n := by
  unfold integerPower at found
  split at found
  · rename_i one
    cases found
    rw [one, zpow_one]
  · exact exactPower_eq_ok found

/-- Where the factors that an exponent is multiplied into need no further rewriting, a power is the
power of the coefficient times the factors with the multiplied exponents. -/
theorem powerOf_eq_assembleProduct {e r : Expr} (canonical : e.Canonical) (nonzero : n ≠ 0)
    (each : ∀ b x, (b, x) ∈ e.factorPart → CanonicalFactor b (x.scale n))
    (found : (powerOf e (number n) : Except Error Expr) = .ok r) :
    r = assembleProduct (e.coefficientPart ^ n) (raisedFactors n e.factorPart) := by
  by_cases one : n = 1
  · subst one
    rw [Int.cast_one, powerOf_one] at found
    cases found
    rw [zpow_one, raisedFactors_one, assembleProduct_self canonical]
  -- All expressions but numbers and products enter with a single factor and the coefficient one.
  have single {b x : Expr} (coefficient : e.coefficientPart = 1) (part : e.factorPart = [(b, x)])
      (raised : r = ofFactor (b, x.scale n)) :
      r = assembleProduct (e.coefficientPart ^ n) (raisedFactors n e.factorPart) := by
    rw [coefficient, part, one_zpow, raised]
    exact (assembleProduct_one_lone _).symm
  have bare (coefficient : e.coefficientPart = 1) (part : e.factorPart = [(e, number 1)]) :
      r = assembleProduct (e.coefficientPart ^ n) (raisedFactors n e.factorPart) := by
    have factor := each e (number 1) (part ▸ List.mem_singleton_self _)
    have exponent : (number 1).scale n = number n := by rw [scale_number, mul_one]
    refine single coefficient part ?_
    have raised := powerOf_of_canonicalFactor factor
    rw [exponent, found] at raised
    rw [exponent, Except.ok.inj raised]
  cases canonical with
  | number form =>
    rw [powerOf_numbers _ nonzero] at found
    obtain ⟨q, power, rfl⟩ := map_eq_ok_iff.mp found
    exact congrArg number (integerPower_eq_ok power)
  | @power c f form base exponent =>
    refine single rfl rfl ?_
    have factor := each c f (List.mem_singleton_self _)
    rw [powerOf_power nonzero one, productOf_number_right n exponent] at found
    exact (Except.ok.inj ((powerOf_of_canonicalFactor factor).symm.trans found)).symm
  | @product q factors form bases exponents =>
    have collected : Collected factors := ⟨form.increasing, bases, exponents⟩
    rw [powerOf_product nonzero one] at found
    obtain ⟨p, power, found⟩ := bind_eq_ok_iff.mp found
    rw [powersOf_of_canonicalFactors exponents each] at found
    obtain rfl := exactPower_eq_ok power
    have assembled := productOf_number_partsOf (zpow_ne_zero n form.nonzero)
      (collected.raisedFactors n).increasing fun b x member => by
        obtain ⟨f, stored, rfl⟩ := mem_raisedFactors_iff.mp member
        exact each b f stored
    exact Except.ok.inj (found.symm.trans assembled)
  | _ => exact bare rfl rfl

end Powers

end SymbolicAlgebra
