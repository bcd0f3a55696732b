import SymbolicAlgebra.Proofs.Order
import SymbolicAlgebra.Proofs.ProductRun

namespace SymbolicAlgebra

/-- The pairs stand in the order of their first parts, no two of which are equal. -/
def Increasing {β : Type} (pairs : List (Expr × β)) : Prop :=
  pairs.Pairwise fun x y => x.1.compare y.1 = .lt

namespace Expr

/-- A number in lowest terms; it is an integer unless its denominator is above one. -/
structure CanonicalNumber (q : Rat) : Prop where
  reduced : q.num.natAbs.Coprime q.den
  denominator : (number q).kind = .rational → 1 < q.den

/-- The expressions that a sum stores under multiplicities. Numbers, sums and numeric coefficients
have no place there. -/
def IsTerm : Expr → Prop
  | number _ => False
  | sum _ _ => False
  | product coefficient _ => coefficient = 1
  | _ => True

structure CanonicalSum (constant : Rat) (terms : List Multiple) : Prop where
  nonempty : terms ≠ []
  not_lone : constant = 0 → terms.length ≠ 1
  increasing : Increasing terms
  bare : ∀ t q, (t, q) ∈ terms → t.IsTerm
  multiplicity : ∀ t q, (t, q) ∈ terms → q ≠ 0

/-- The factors that a product keeps: raising the base to the exponent gives this factor back. -/
structure CanonicalFactor (b e : Expr) : Prop where
  exponent : e ≠ number 0
  fixed : ∃ f, (powerOf b e : Except Error Expr) = .ok f ∧ f.toFactor = (b, e)
  unmerged : e = number 1 → (∀ q, b ≠ number q) ∧ ∀ q factors, b ≠ product q factors

structure CanonicalProduct (coefficient : Rat) (factors : List Factor) : Prop where
  nonzero : coefficient ≠ 0
  nonempty : factors ≠ []
  increasing : Increasing factors
  factor : ∀ b e, (b, e) ∈ factors → CanonicalFactor b e
  not_lone : coefficient = 1 → factors.length ≠ 1
  not_lone_sum : ∀ c terms, factors ≠ [(sum c terms, number 1)]

/-- The normal form of expressions, at every depth. -/
inductive Canonical : Expr → Prop where
  | number {q} (form : CanonicalNumber q) : Canonical (number q)
  | symbol (name) : Canonical (symbol name)
  | sum {constant terms} (form : CanonicalSum constant terms)
      (terms_canonical : ∀ t q, (t, q) ∈ terms → Canonical t) : Canonical (sum constant terms)
  | product {coefficient factors} (form : CanonicalProduct coefficient factors)
      (bases_canonical : ∀ b e, (b, e) ∈ factors → Canonical b)
      (exponents_canonical : ∀ b e, (b, e) ∈ factors → Canonical e) :
      Canonical (product coefficient factors)
  | power {b e} (form : CanonicalPower b e) (base_canonical : Canonical b)
      (exponent_canonical : Canonical e) : Canonical (power b e)
  | sin {a} (form : a ≠ number 0) (argument_canonical : Canonical a) : Canonical (sin a)
  | cos {a} (form : a ≠ number 0) (argument_canonical : Canonical a) : Canonical (cos a)
  | apply {name a} (argument_canonical : Canonical a) : Canonical (apply name a)
  | derivative {a names} (form : names ≠ []) (target_canonical : Canonical a) :
      Canonical (derivative a names)

theorem canonical_number (q : Rat) : Canonical (number q) := by
  refine .number ⟨q.reduced, fun kind => ?_⟩
  have fraction : ¬ isInteger q = true := by
    intro integer
    rw [Expr.kind, if_pos integer] at kind
    cases kind
  have denominator : q.den ≠ 1 := fun equal => fraction (by simp [isInteger, equal])
  have := q.den_pos
  omega

theorem canonical_pair {a b : Expr} (left : Canonical a) (right : Canonical b) :
    ∀ e ∈ [a, b], Canonical e := by
  simp [left, right]

theorem canonical_successor (name : String) : (sum 1 [(symbol name, 1)]).Canonical := by
  refine .sum ⟨by simp, by simp, by simp [Increasing], ?_, ?_⟩ ?_
  all_goals
    intro t q stored
    cases List.mem_singleton.mp stored
  · trivial
  · exact one_ne_zero
  · exact .symbol name

theorem canonical_sum_pair {a b : Expr} {c p q : Rat} (left : a.Canonical) (right : b.Canonical)
    (left_term : a.IsTerm) (right_term : b.IsTerm) (order : a.compare b = .lt) (hp : p ≠ 0)
    (hq : q ≠ 0) : (sum c [(a, p), (b, q)]).Canonical := by
  refine .sum ⟨by simp, by simp, by simpa [Increasing] using order, ?_, ?_⟩ ?_ <;>
    · simp only [List.mem_cons, Prod.mk.injEq, List.not_mem_nil, or_false]
      rintro t r (⟨rfl, rfl⟩ | ⟨rfl, rfl⟩) <;> assumption

/-- A base that is raised inside never comes back whole. -/
theorem toFactor_ne_of_raisesInside {b r : Expr} {n : Int} (folds : b.raisesInside = true)
    (base_zero : b ≠ number 0) (base_one : b ≠ number 1) (zero : n ≠ 0) (one : n ≠ 1)
    (found : (powerOf b (number n) : Except Error Expr) = .ok r) : r.toFactor ≠ (b, number n) := by
  have exponent_one : number n ≠ number 1 := fun equal => one (by exact_mod_cast number.inj equal)
  -- It would have to come as the power itself, which weighs too much.
  have heavy (whole : r.weight < b.size) : r.toFactor ≠ (b, number n) := by
    intro same
    cases r with
    | power c f =>
      obtain ⟨rfl, rfl⟩ := Prod.mk.inj same
      have : (power c (number n)).weight = c.size := weight_of_single rfl
      omega
    | _ => exact exponent_one (Prod.mk.inj same).2.symm
  cases b with
  | number q =>
    have nonzero : q ≠ 0 := fun equal => base_zero (congrArg number equal)
    have not_one : q ≠ 1 := fun equal => base_one (congrArg number equal)
    rw [powerOf_number nonzero not_one zero one] at found
    obtain ⟨p, _, rfl⟩ := map_eq_ok_iff.mp found
    exact heavy (size_pos _)
  | power c f =>
    rw [powerOf_power zero one] at found
    obtain ⟨k, _, found⟩ := bind_eq_ok_iff.mp found
    have light := (raisedFrom_of_powerOf found).weight_le
    refine heavy ?_
    simp only [size] at light ⊢
    omega
  | product coefficient factors =>
    rw [powerOf_product zero one] at found
    obtain ⟨p, _, found⟩ := bind_eq_ok_iff.mp found
    obtain ⟨rs, powers, found⟩ := bind_eq_ok_iff.mp found
    have light := weight_le_of_productOf found
    have lighter := totalWeight_le_of_powersOf powers
    have := sizeOfBases_le factors
    refine heavy ?_
    rw [totalWeight_cons, weight_number] at light
    simp only [size]
    omega
  | _ => cases folds

theorem toFactor_of_not_raisesInside {b : Expr} (free : ¬ b.raisesInside = true) :
    b.toFactor = (b, number 1) := by
  cases b <;> first | rfl | exact absurd rfl free

/-- A factor is kept if it is a bare expression that cannot be raised inside, or a power. -/
theorem canonicalFactor_iff {b e : Expr} :
    CanonicalFactor b e ↔ e = number 1 ∧ ¬ b.raisesInside = true ∨ CanonicalPower b e := by
  constructor
  · rintro ⟨exponent, ⟨f, found, factor⟩, unmerged⟩
    cases powerRule b e with
    | zeroBase q =>
      rw [powerOf_zero_number] at found
      obtain ⟨p, _, rfl⟩ := map_eq_ok_iff.mp found
      obtain ⟨_, one⟩ := Prod.mk.inj factor
      exact absurd rfl ((unmerged one.symm).1 0)
    | zeroExponent base => exact absurd rfl exponent
    | oneExponent base =>
      rw [powerOf_exponent_one base] at found
      cases found
      obtain ⟨not_number, not_product⟩ := unmerged rfl
      refine .inl ⟨rfl, fun folds => ?_⟩
      cases b with
      | number q => exact not_number q rfl
      | power c f =>
        have inside : c.size = (power c f).size := congrArg size (Prod.mk.inj factor).1
        simp only [size] at inside
        omega
      | product q factors => exact not_product q factors rfl
      | _ => cases folds
    | oneBase zero one =>
      rw [powerOf_base_one zero one] at found
      cases found
      exact absurd (Prod.mk.inj factor).2.symm one
    | inside folds base_zero base_one zero one =>
      exact absurd factor (toFactor_ne_of_raisesInside folds base_zero base_one zero one found)
    | none canonical => exact .inr canonical
  · rintro (⟨rfl, free⟩ | canonical)
    · refine ⟨by simp, ⟨b, powerOf_exponent_one ?_, toFactor_of_not_raisesInside free⟩, fun _ => ?_⟩
      · rintro rfl
        exact free rfl
      · constructor
        · rintro q rfl
          exact free rfl
        · rintro q factors rfl
          exact free rfl
    · exact ⟨canonical.exponent_ne_zero, ⟨power b e, powerOf_of_canonicalPower canonical, rfl⟩,
        fun one => absurd one canonical.exponent_ne_one⟩

/-- Over a base that takes no exponent inside, every exponent but zero stays as it is. -/
theorem canonicalFactor_of_free {b e : Expr} (free : ¬ b.raisesInside = true)
    (nonzero : e ≠ number 0) : CanonicalFactor b e := by
  refine canonicalFactor_iff.mpr ?_
  by_cases one : e = number 1
  · exact .inl ⟨one, free⟩
  · refine .inr ⟨nonzero, one, ?_, ?_, fun folds => absurd folds free⟩
    · rintro rfl
      exact free rfl
    · rintro rfl
      exact absurd rfl free

/-- Factors that need no merging and make up a term without further ado. -/
structure KeptFactors (factors : List Factor) : Prop where
  nonempty : factors ≠ []
  increasing : Increasing factors
  factor : ∀ b e, (b, e) ∈ factors → CanonicalFactor b e
  not_lone_sum : ∀ c terms, factors ≠ [(sum c terms, number 1)]
  bases_canonical : ∀ b e, (b, e) ∈ factors → Canonical b
  exponents_canonical : ∀ b e, (b, e) ∈ factors → Canonical e

theorem canonical_product_iff {coefficient : Rat} {factors : List Factor} :
    Canonical (product coefficient factors) ↔
      coefficient ≠ 0 ∧ (coefficient = 1 → factors.length ≠ 1) ∧ KeptFactors factors := by
  constructor
  · rintro (_ | _ | _ | ⟨form, bases, exponents⟩)
    exact ⟨form.nonzero, form.not_lone, form.nonempty, form.increasing, form.factor,
      form.not_lone_sum, bases, exponents⟩
  · rintro ⟨nonzero, not_lone, kept⟩
    exact .product ⟨nonzero, kept.nonempty, kept.increasing, kept.factor, not_lone,
      kept.not_lone_sum⟩ kept.bases_canonical kept.exponents_canonical

theorem ofFactor_of_canonicalPower {b e : Expr} (canonical : CanonicalPower b e) :
    ofFactor (b, e) = power b e := by
  have other : ¬ e.isOne = true := fun one => canonical.exponent_ne_one (isNumber_iff.mp one)
  exact if_neg other

/-- What raising a kept base to its exponent gives. -/
theorem powerOf_of_canonicalFactor {b e : Expr} (factor : CanonicalFactor b e) :
    (powerOf b e : Except Error Expr) = .ok (ofFactor (b, e)) := by
  rcases canonicalFactor_iff.mp factor with ⟨rfl, free⟩ | canonical
  · refine powerOf_exponent_one ?_
    rintro rfl
    exact free rfl
  · rw [ofFactor_of_canonicalPower canonical]
    exact powerOf_of_canonicalPower canonical

/-- An expression enters a product with its factors, as a power, or with the exponent one. -/
theorem mem_factorPart_cases {e b x : Expr} (member : (b, x) ∈ e.factorPart) :
    (∃ q factors, e = product q factors ∧ (b, x) ∈ factors) ∨ e = power b x ∨
      b = e ∧ x = Expr.number 1 := by
  have bare : (b, x) = (e, Expr.number 1) → b = e ∧ x = Expr.number 1 := Prod.mk.inj
  cases e with
  | number q => cases member
  | product q factors => exact .inl ⟨q, factors, rfl, member⟩
  | power c y =>
    cases List.mem_singleton.mp member
    exact .inr (.inl rfl)
  | _ => exact .inr (.inr (bare (List.mem_singleton.mp member)))

theorem canonical_toFactor {e : Expr} (canonical : Canonical e) :
    Canonical e.toFactor.1 ∧ Canonical e.toFactor.2 := by
  cases e with
  | power b x =>
    cases canonical with
    | power form base exponent => exact ⟨base, exponent⟩
  | _ => exact ⟨canonical, canonical_number 1⟩

theorem ofFactor_toFactor {e : Expr} (canonical : Canonical e) : ofFactor e.toFactor = e := by
  cases canonical with
  | power form base exponent => exact ofFactor_of_canonicalPower form
  | _ => rfl

theorem toFactor_ofFactor {b e : Expr} (factor : CanonicalFactor b e) :
    (ofFactor (b, e)).toFactor = (b, e) := by
  rcases canonicalFactor_iff.mp factor with ⟨rfl, free⟩ | canonical
  · exact toFactor_of_not_raisesInside free
  · rw [ofFactor_of_canonicalPower canonical]
    rfl

theorem factorPart_ofFactor {b e : Expr} (factor : CanonicalFactor b e) :
    (ofFactor (b, e)).factorPart = [(b, e)] := by
  rcases canonicalFactor_iff.mp factor with ⟨rfl, free⟩ | canonical
  · have whole : ofFactor (b, number 1) = b := rfl
    rw [whole]
    cases b <;> first | rfl | exact absurd rfl free
  · rw [ofFactor_of_canonicalPower canonical]
    rfl

theorem canonical_ofFactor {b e : Expr} (factor : CanonicalFactor b e) (base : Canonical b)
    (exponent : Canonical e) : Canonical (ofFactor (b, e)) := by
  unfold ofFactor
  split
  · exact base
  · rename_i other
    rcases canonicalFactor_iff.mp factor with ⟨rfl, _⟩ | canonical
    · exact absurd rfl other
    · exact .power canonical base exponent

theorem withCoefficient_eq_product {q : Rat} {factors : List Factor} (nonzero : q ≠ 0)
    (nonempty : factors ≠ []) (not_lone : q = 1 → factors.length ≠ 1) :
    withCoefficient q factors = product q factors := by
  unfold withCoefficient
  rw [if_neg nonzero]
  cases factors with
  | nil => exact absurd rfl nonempty
  | cons factor rest =>
    cases rest with
    | nil =>
      have not_one : q ≠ 1 := fun one => not_lone one rfl
      exact if_neg not_one
    | cons other others => rfl

theorem withCoefficient_zero (factors : List Factor) : withCoefficient 0 factors = number 0 :=
  if_pos rfl

theorem withCoefficient_one_singleton (factor : Factor) :
    withCoefficient 1 [factor] = ofFactor factor := by
  rw [withCoefficient, if_neg (by decide), if_pos rfl]

theorem isTerm_ofFactor {b e : Expr} (factor : CanonicalFactor b e)
    (not_sum : ∀ c terms, [(b, e)] ≠ [(sum c terms, number 1)]) : (ofFactor (b, e)).IsTerm := by
  unfold ofFactor
  split
  · rename_i one
    obtain rfl := isNumber_iff.mp one
    rcases canonicalFactor_iff.mp factor with ⟨_, free⟩ | canonical
    · cases b with
      | number q => exact free rfl
      | sum c terms => exact not_sum c terms rfl
      | product q factors => exact absurd rfl free
      | _ => trivial
    · exact absurd rfl canonical.exponent_ne_one
  · trivial

namespace KeptFactors

variable {factors : List Factor}

theorem singleton {b e : Expr} (factor : CanonicalFactor b e) (base : Canonical b)
    (exponent : Canonical e) (not_sum : ∀ c terms, [(b, e)] ≠ [(sum c terms, number 1)]) :
    KeptFactors [(b, e)] where
  nonempty := List.cons_ne_nil _ _
  increasing := List.pairwise_singleton ..
  factor c f member := by
    cases List.mem_singleton.mp member
    exact factor
  not_lone_sum := not_sum
  bases_canonical c f member := by
    cases List.mem_singleton.mp member
    exact base
  exponents_canonical c f member := by
    cases List.mem_singleton.mp member
    exact exponent

/-- Under a coefficient the factors are either one bare factor or make a product. -/
theorem withCoefficient_cases (kept : KeptFactors factors) {q : Rat} (nonzero : q ≠ 0) :
    (∃ b e, factors = [(b, e)] ∧ q = 1 ∧ withCoefficient q factors = ofFactor (b, e)) ∨
    (q = 1 → factors.length ≠ 1) ∧ withCoefficient q factors = product q factors := by
  by_cases lone : q = 1 ∧ factors.length = 1
  · obtain ⟨rfl, one⟩ := lone
    obtain ⟨⟨b, e⟩, rfl⟩ := List.length_eq_one_iff.mp one
    exact .inl ⟨b, e, rfl, rfl, withCoefficient_one_singleton _⟩
  · have not_lone : q = 1 → factors.length ≠ 1 := fun one length => lone ⟨one, length⟩
    exact .inr ⟨not_lone, withCoefficient_eq_product nonzero kept.nonempty not_lone⟩

theorem canonical_withCoefficient (kept : KeptFactors factors) (q : Rat) :
    Canonical (withCoefficient q factors) := by
  by_cases zero : q = 0
  · rw [zero, withCoefficient_zero]
    exact canonical_number 0
  · rcases kept.withCoefficient_cases zero with ⟨b, e, rfl, _, whole⟩ | ⟨not_lone, whole⟩
    · rw [whole]
      exact canonical_ofFactor (kept.factor b e (List.mem_singleton_self _))
        (kept.bases_canonical b e (List.mem_singleton_self _))
        (kept.exponents_canonical b e (List.mem_singleton_self _))
    · rw [whole]
      exact canonical_product_iff.mpr ⟨zero, not_lone, kept⟩

theorem isTerm (kept : KeptFactors factors) : (withCoefficient 1 factors).IsTerm := by
  rcases kept.withCoefficient_cases one_ne_zero with ⟨b, e, rfl, _, whole⟩ | ⟨_, whole⟩
  · rw [whole]
    exact isTerm_ofFactor (kept.factor b e (List.mem_singleton_self _)) kept.not_lone_sum
  · rw [whole]
    rfl

theorem factorPart_withCoefficient (kept : KeptFactors factors) {q : Rat} (nonzero : q ≠ 0) :
    (withCoefficient q factors).factorPart = factors := by
  rcases kept.withCoefficient_cases nonzero with ⟨b, e, rfl, _, whole⟩ | ⟨_, whole⟩
  · rw [whole]
    exact factorPart_ofFactor (kept.factor b e (List.mem_singleton_self _))
  · rw [whole]
    rfl

end KeptFactors

/-- The factors of a term are kept ones. -/
theorem Canonical.keptFactors {t : Expr} (canonical : Canonical t) (term : t.IsTerm) :
    KeptFactors t.factorPart := by
  have single (bare : t.toFactor = (t, Expr.number 1))
      (free : ¬ t.raisesInside = true) : KeptFactors [t.toFactor] := by
    rw [bare]
    have factor := canonicalFactor_iff.mpr (.inl ⟨rfl, free⟩)
    refine .singleton factor canonical (canonical_number 1) fun c terms sum => ?_
    cases sum
    exact term
  cases t with
  | number q => exact absurd term id
  | sum c terms => exact absurd term id
  | product q factors => exact (canonical_product_iff.mp canonical).2.2
  | power b e =>
    cases canonical with
    | power form base exponent =>
      have factor := canonicalFactor_iff.mpr (.inr form)
      refine .singleton factor base exponent fun c terms sum => ?_
      cases sum
      exact form.exponent_ne_one rfl
  | _ => exact single rfl (by simp [raisesInside])

/-- A term is the product of its factors. -/
theorem Canonical.withCoefficient_factorPart {t : Expr} (canonical : Canonical t)
    (term : t.IsTerm) : withCoefficient 1 t.factorPart = t := by
  cases t with
  | number q => exact absurd term id
  | sum c terms => exact absurd term id
  | product q factors =>
    obtain ⟨nonzero, not_lone, kept⟩ := canonical_product_iff.mp canonical
    obtain rfl : q = 1 := term
    exact withCoefficient_eq_product nonzero kept.nonempty not_lone
  | power b e => exact (withCoefficient_one_singleton _).trans (ofFactor_toFactor canonical)
  | _ => exact withCoefficient_one_singleton _

/-- What sums and products make of an expression: a number, a sum, or a multiple of factors. -/
inductive Shape : Expr → Prop where
  | number (q) : Shape (number q)
  | sum {constant terms} (form : CanonicalSum constant terms)
      (each : ∀ t q, (t, q) ∈ terms → Canonical t) : Shape (sum constant terms)
  | multiple {q factors} (nonzero : q ≠ 0) (kept : KeptFactors factors) :
      Shape (withCoefficient q factors)

theorem Canonical.shape {e : Expr} (canonical : Canonical e) : Shape e := by
  have of_term (term : e.IsTerm) : Shape e := by
    rw [← canonical.withCoefficient_factorPart term]
    exact .multiple one_ne_zero (canonical.keptFactors term)
  cases e with
  | number q => exact .number q
  | sum constant terms =>
    cases canonical with
    | sum form each => exact .sum form each
  | product q factors =>
    obtain ⟨nonzero, not_lone, kept⟩ := canonical_product_iff.mp canonical
    rw [← withCoefficient_eq_product nonzero kept.nonempty not_lone]
    exact .multiple nonzero kept
  | _ => exact of_term trivial

/-- The factors that a canonical expression contributes to a product are in order and kept. -/
theorem Canonical.factorPart {e : Expr} (canonical : Canonical e) :
    Increasing e.factorPart ∧
      ∀ b x, (b, x) ∈ e.factorPart → CanonicalFactor b x ∧ Canonical b ∧ Canonical x := by
  cases canonical.shape with
  | number q =>
    refine ⟨List.Pairwise.nil, fun b x member => ?_⟩
    cases member
  | @sum constant terms form each =>
    refine ⟨List.pairwise_singleton .., fun b x member => ?_⟩
    cases List.mem_singleton.mp member
    have free : ¬ (Expr.sum constant terms).raisesInside = true := Bool.false_ne_true
    have factor := canonicalFactor_iff.mpr (.inl ⟨rfl, free⟩)
    exact ⟨factor, canonical, canonical_number 1⟩
  | multiple nonzero kept =>
    rw [kept.factorPart_withCoefficient nonzero]
    exact ⟨kept.increasing, fun b x member => ⟨kept.factor b x member,
      kept.bases_canonical b x member, kept.exponents_canonical b x member⟩⟩

theorem KeptFactors.coefficientPart_withCoefficient {factors : List Factor}
    (kept : KeptFactors factors) {q : Rat} (nonzero : q ≠ 0) :
    (withCoefficient q factors).coefficientPart = q := by
  rcases kept.withCoefficient_cases nonzero with ⟨b, e, rfl, rfl, _⟩ | ⟨_, whole⟩
  · have term := kept.isTerm
    cases shape : withCoefficient 1 [(b, e)] with
    | number r =>
      rw [shape] at term
      exact absurd term id
    | product r factors =>
      rw [shape] at term
      exact term
    | _ => rfl
  · rw [whole]
    rfl

end Expr

end SymbolicAlgebra
