import SymbolicAlgebra.Proofs.Polynomials
import SymbolicAlgebra.Proofs.RaisedFactors

namespace SymbolicAlgebra

open MvPolynomial SymbolicAlgebra.Expr

/-- Positive integer powers of indeterminates. -/
def MonomialFactors (factors : List Factor) : Prop :=
  ∀ b e, (b, e) ∈ factors → b.IsIndeterminate ∧ ∃ n : Int, 0 < n ∧ e = number n

/-- The exponents that the indeterminates have among the factors. -/
noncomputable def degrees (factors : List Factor) : Expr →₀ ℕ :=
  (factors.map fun factor => Finsupp.single factor.1 factor.2.natural).sum

theorem degrees_cons (b e : Expr) (rest : List Factor) :
    degrees ((b, e) :: rest) = Finsupp.single b e.natural + degrees rest := rfl

theorem degrees_append (factors others : List Factor) :
    degrees (factors ++ others) = degrees factors + degrees others := by
  simp [degrees]

theorem Expr.IsIndeterminate.not_raisesInside {b : Expr} (form : b.IsIndeterminate) :
    ¬ b.raisesInside = true := by
  cases b <;> first | exact absurd form id | exact Bool.false_ne_true

namespace MonomialFactors

variable {factors : List Factor} (monomial : MonomialFactors factors)

theorem nil : MonomialFactors [] := by
  intro b e member
  cases member

theorem cons_iff {b e : Expr} {rest : List Factor} : MonomialFactors ((b, e) :: rest) ↔
    (b.IsIndeterminate ∧ ∃ n : Int, 0 < n ∧ e = number n) ∧ MonomialFactors rest := by
  simp only [MonomialFactors, List.mem_cons, Prod.mk.injEq]
  constructor
  · intro each
    exact ⟨each b e (.inl ⟨rfl, rfl⟩), fun c f member => each c f (.inr member)⟩
  · rintro ⟨first, later⟩ c f (⟨rfl, rfl⟩ | member)
    · exact first
    · exact later c f member

include monomial

theorem canonicalFactor {b e : Expr} (member : (b, e) ∈ factors) : CanonicalFactor b e := by
  obtain ⟨form, n, positive, rfl⟩ := monomial b e member
  exact canonicalFactor_of_not_raisesInside form.not_raisesInside positive.ne'

theorem polynomialOfFactors_eq :
    polynomialOfFactors factors = MvPolynomial.monomial (degrees factors) 1 := by
  induction factors with
  | nil => rw [polynomialOfFactors]; rfl
  | cons head rest ih =>
    obtain ⟨b, e⟩ := head
    obtain ⟨⟨form, _⟩, later⟩ := cons_iff.mp monomial
    rw [polynomialOfFactors, polynomial_of_isIndeterminate form, ih later, X_pow_eq_monomial,
      monomial_mul, one_mul, degrees_cons]

theorem exponentCoordinate_none (b : Expr) :
    exponentCoordinate none b factors = degrees factors b := by
  induction factors with
  | nil => rfl
  | cons head rest ih =>
    obtain ⟨c, e⟩ := head
    obtain ⟨⟨_, n, positive, rfl⟩, later⟩ := cons_iff.mp monomial
    have exponent : coordinate none (number n) = (number n).natural := by
      rw [natural_number]
      change (n : Rat) = (n.toNat : Rat)
      exact_mod_cast (Int.toNat_of_nonneg positive.le).symm
    rw [exponentCoordinate_cons, ih later, degrees_cons, Finsupp.add_apply, Finsupp.single_apply,
      Nat.cast_add, exponent, Nat.cast_ite, Nat.cast_zero]

theorem exponentCoordinate_some (t b : Expr) : exponentCoordinate (some t) b factors = 0 := by
  induction factors with
  | nil => rfl
  | cons head rest ih =>
    obtain ⟨c, e⟩ := head
    obtain ⟨⟨_, n, _, rfl⟩, later⟩ := cons_iff.mp monomial
    have constant : coordinate (some t) (number n) = 0 := rfl
    rw [exponentCoordinate_cons, ih later, constant, ite_self, add_zero]

/-- Merged powers of indeterminates are determined by the exponents. -/
theorem ext {others : List Factor} (monomial_others : MonomialFactors others)
    (merged : Merged factors) (merged_others : Merged others)
    (equal : degrees factors = degrees others) : factors = others := by
  refine merged.ext merged_others fun k b => ?_
  cases k with
  | none =>
    rw [monomial.exponentCoordinate_none, monomial_others.exponentCoordinate_none, equal]
  | some t =>
    rw [monomial.exponentCoordinate_some, monomial_others.exponentCoordinate_some]

end MonomialFactors

section Operands

variable {operands : List Expr} (canonical : ∀ e ∈ operands, e.Canonical)
  (monomial : MonomialFactors (operands.flatMap factorPart))

include canonical monomial

/-- Powers of indeterminates merge to powers of indeterminates. -/
theorem MonomialFactors.mergedFactors : MonomialFactors (mergedFactors operands) := by
  intro b e member
  have merged := merged_mergedFactors canonical
  have total (k : Option Expr) :
      coordinate k e = exponentCoordinate k b (operands.flatMap factorPart) :=
    (merged.collected.increasing.exponentCoordinate_eq k member).symm.trans
      (exponentCoordinate_mergedFactors canonical k b)
  have exponent : e = number ((degrees (operands.flatMap factorPart) b : Int) : Rat) := by
    refine (merged.collected.exponents_canonical b e member).ext (canonical_number _) fun k => ?_
    cases k with
    | none =>
      rw [total, monomial.exponentCoordinate_none, Int.cast_natCast]
      rfl
    | some t =>
      rw [total, monomial.exponentCoordinate_some]
      rfl
  have positive : 0 < degrees (operands.flatMap factorPart) b := by
    refine Nat.pos_of_ne_zero fun zero => merged.nonzero b e member ?_
    rw [exponent, zero, Nat.cast_zero, Int.cast_zero]
  have carried : ∃ f, (b, f) ∈ operands.flatMap factorPart := by
    by_contra absent
    have none := monomial.exponentCoordinate_none b
    rw [exponentCoordinate_eq_zero Option.none (not_exists.mp absent)] at none
    exact positive.ne (by exact_mod_cast none)
  obtain ⟨f, inside⟩ := carried
  exact ⟨(monomial b f inside).1, _, by exact_mod_cast positive, exponent⟩

theorem degrees_mergedFactors :
    degrees (SymbolicAlgebra.mergedFactors operands) = degrees (operands.flatMap factorPart) := by
  ext b
  have equal := exponentCoordinate_mergedFactors canonical none b
  rw [(monomial.mergedFactors canonical).exponentCoordinate_none, monomial.exponentCoordinate_none]
    at equal
  exact_mod_cast equal

end Operands

/-- A canonical number, or a multiple of powers of indeterminates. -/
structure Expr.IsMonomial (e : Expr) : Prop where
  canonical : e.Canonical
  factors : MonomialFactors e.factorPart

section Monomial

theorem isMonomial_number (q : Rat) : (number q).IsMonomial :=
  ⟨canonical_number q, .nil⟩

theorem Expr.IsMonomial.polynomial_eq {e : Expr} (monomial : e.IsMonomial) :
    e.polynomial = MvPolynomial.monomial (degrees e.factorPart) e.coefficientPart := by
  obtain ⟨canonical, factors⟩ := monomial
  cases canonical.shape with
  | number q =>
    rw [polynomial_number]
    rfl
  | sum form each => exact absurd (factors _ _ (List.mem_singleton_self _)).1 id
  | multiple nonzero kept =>
    rw [kept.factorPart_withCoefficient nonzero] at factors ⊢
    rw [polynomial_withCoefficient, factors.polynomialOfFactors_eq, C_mul_monomial, mul_one,
      kept.coefficientPart_withCoefficient nonzero]

theorem isMonomial_withCoefficient {q : Rat} {factors : List Factor} (kept : KeptFactors factors)
    (nonzero : q ≠ 0) (monomial : MonomialFactors factors) :
    (withCoefficient q factors).IsMonomial := by
  refine ⟨kept.canonical_withCoefficient q, ?_⟩
  rwa [kept.factorPart_withCoefficient nonzero]

theorem isMonomial_ofFactor {b : Expr} {n : Int} (form : b.IsIndeterminate) (canonical : b.Canonical)
    (positive : 0 < n) : (ofFactor (b, number n)).IsMonomial := by
  have factor := canonicalFactor_of_not_raisesInside form.not_raisesInside positive.ne'
  refine ⟨canonical_ofFactor factor canonical (canonical_number n), ?_⟩
  rw [factorPart_ofFactor factor]
  exact MonomialFactors.cons_iff.mpr ⟨⟨form, n, positive, rfl⟩, .nil⟩

theorem isMonomial_of_isIndeterminate {b : Expr} (form : b.IsIndeterminate)
    (canonical : b.Canonical) : b.IsMonomial := by
  have power := isMonomial_ofFactor form canonical one_pos
  rwa [Int.cast_one] at power

theorem MonomialFactors.keptFactors {factors : List Factor} (monomial : MonomialFactors factors)
    (collected : Collected factors) (nonempty : factors ≠ []) : KeptFactors factors where
  nonempty := nonempty
  increasing := collected.increasing
  factor b e member := monomial.canonicalFactor member
  not_lone_sum c terms same := by
    subst same
    exact (monomial _ _ (List.mem_singleton_self _)).1
  bases_canonical := collected.bases_canonical
  exponents_canonical := collected.exponents_canonical

theorem MonomialFactors.assembleProduct {factors : List Factor} (monomial : MonomialFactors factors)
    (collected : Collected factors) {q : Rat} (nonzero : q ≠ 0) :
    (assembleProduct q factors).IsMonomial ∧
      (assembleProduct q factors).polynomial = MvPolynomial.monomial (degrees factors) q := by
  by_cases empty : factors = []
  · rw [empty]
    exact ⟨isMonomial_number q, polynomial_number q⟩
  · have kept := monomial.keptFactors collected empty
    rw [assembleProduct_eq_withCoefficient kept nonzero]
    refine ⟨isMonomial_withCoefficient kept nonzero monomial, ?_⟩
    rw [polynomial_withCoefficient, monomial.polynomialOfFactors_eq, C_mul_monomial, mul_one]

theorem prod_polynomial {operands : List Expr} (monomials : ∀ e ∈ operands, e.IsMonomial) :
    (operands.map polynomial).prod =
      monomial (degrees (operands.flatMap factorPart)) (collectCoefficient operands) := by
  induction operands with
  | nil => rfl
  | cons e rest ih =>
    obtain ⟨first, later⟩ := List.forall_mem_cons.mp monomials
    rw [List.map_cons, List.prod_cons, ih later, first.polynomial_eq, monomial_mul,
      List.flatMap_cons, degrees_append, collectCoefficient]

/-- Monomials can be multiplied to a monomial. -/
theorem exists_productOf_of_monomials {operands : List Expr}
    (monomials : ∀ e ∈ operands, e.IsMonomial) :
    ∃ r, (productOf operands : Except Error Expr) = .ok r ∧ r.IsMonomial ∧
      r.polynomial = (operands.map polynomial).prod := by
  have canonical : ∀ e ∈ operands, e.Canonical := fun e member => (monomials e member).canonical
  have parts : MonomialFactors (operands.flatMap factorPart) := by
    intro b x member
    obtain ⟨e, inside, part⟩ := List.mem_flatMap.mp member
    exact (monomials e inside).factors b x part
  have merged := parts.mergedFactors canonical
  have collected := (merged_mergedFactors canonical).collected
  -- No power of an indeterminate is rewritten, so that one pass is enough.
  refine ⟨_, productOf_of_canonicalFactors fun b e member => merged.canonicalFactor member, ?_⟩
  rw [prod_polynomial monomials, ← degrees_mergedFactors canonical parts]
  split
  · rename_i zero
    rw [zero, monomial_zero, polynomial_number, C_0]
    exact ⟨isMonomial_number 0, rfl⟩
  · rename_i nonzero
    exact merged.assembleProduct collected nonzero

theorem Expr.IsMonomial.degrees_ne_zero {t : Expr} (monomial : t.IsMonomial) (term : t.IsTerm) :
    degrees t.factorPart ≠ 0 := by
  intro zero
  refine (monomial.canonical.keptFactors term).nonempty ?_
  refine monomial.factors.ext .nil monomial.canonical.merged_factorPart ?_ zero
  exact (canonical_number 0).merged_factorPart

/-- A monomial is known by its exponents. -/
theorem Expr.IsMonomial.ext {t u : Expr} (left : t.IsMonomial) (left_term : t.IsTerm)
    (right : u.IsMonomial) (right_term : u.IsTerm)
    (equal : degrees t.factorPart = degrees u.factorPart) : t = u := by
  rw [← left.canonical.withCoefficient_factorPart left_term,
    ← right.canonical.withCoefficient_factorPart right_term,
    left.factors.ext right.factors left.canonical.merged_factorPart
      right.canonical.merged_factorPart equal]

end Monomial

section Powers

variable {n : Int} (positive : 0 < n)

include positive

theorem MonomialFactors.raisedFactors {factors : List Factor} (monomial : MonomialFactors factors) :
    MonomialFactors (raisedFactors n factors) := by
  intro b e member
  obtain ⟨f, stored, rfl⟩ := mem_raisedFactors_iff.mp member
  obtain ⟨form, m, above, rfl⟩ := monomial b f stored
  exact ⟨form, n * m, mul_pos positive above, by rw [scale_number, Int.cast_mul]⟩

theorem degrees_raisedFactors {factors : List Factor} (monomial : MonomialFactors factors) :
    degrees (raisedFactors n factors) = n.toNat • degrees factors := by
  induction factors with
  | nil => exact (smul_zero _).symm
  | cons head rest ih =>
    obtain ⟨b, e⟩ := head
    obtain ⟨⟨_, m, above, rfl⟩, later⟩ := MonomialFactors.cons_iff.mp monomial
    have exponent : ((number m).scale n).natural = n.toNat * (number m).natural := by
      rw [scale_number, ← Int.cast_mul, natural_number, natural_number,
        Int.toNat_mul positive.le above.le]
    change Finsupp.single b ((number m).scale n).natural + degrees (raisedFactors n rest) = _
    rw [ih later, exponent, degrees_cons, smul_add, Finsupp.smul_single, smul_eq_mul]

/-- A monomial that can be raised to a positive power gives a monomial. -/
theorem Expr.IsMonomial.of_powerOf {e r : Expr} (monomial : e.IsMonomial)
    (found : (powerOf e (number n) : Except Error Expr) = .ok r) :
    r.IsMonomial ∧ r.polynomial = e.polynomial ^ n.toNat := by
  have raised := monomial.factors.raisedFactors positive
  have power := powerOf_eq_assembleProduct monomial.canonical positive.ne'
    (fun b x stored => raised.canonicalFactor (mem_raisedFactors_iff.mpr ⟨x, stored, rfl⟩)) found
  have value : MvPolynomial.monomial (degrees (raisedFactors n e.factorPart))
      (e.coefficientPart ^ n) = e.polynomial ^ n.toNat := by
    rw [monomial.polynomial_eq, monomial_pow, degrees_raisedFactors positive monomial.factors,
      ← zpow_natCast, Int.toNat_of_nonneg positive.le]
  rw [power, ← value]
  by_cases zero : e.coefficientPart = 0
  · rw [eq_zero_of_coefficientPart monomial.canonical zero]
    exact ⟨isMonomial_number _, polynomial_number _⟩
  · have canonical := monomial.canonical
    have collected := canonical.merged_factorPart.collected
    exact raised.assembleProduct (collected.raisedFactors n) (zpow_ne_zero n zero)

end Powers

end SymbolicAlgebra
