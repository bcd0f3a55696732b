import SymbolicAlgebra.Proofs.LinearOperations
import SymbolicAlgebra.Proofs.Monomials

namespace SymbolicAlgebra

open MvPolynomial SymbolicAlgebra.Expr

/-- A sum of multiples of monomials, or one of them, in normal form. -/
structure Expr.IsExpanded (e : Expr) : Prop where
  canonical : e.Canonical
  terms : ∀ t q, (t, q) ∈ e.termPart → MonomialFactors t.factorPart

theorem Expr.IsMonomial.isExpanded {e : Expr} (monomial : e.IsMonomial) : e.IsExpanded := by
  obtain ⟨canonical, factors⟩ := monomial
  refine ⟨canonical, fun t q member => ?_⟩
  cases canonical.shape with
  | number r => cases member
  | sum form each => exact absurd (factors _ _ (List.mem_singleton_self _)).1 id
  | multiple nonzero kept =>
    rw [kept.factorPart_withCoefficient nonzero] at factors
    rw [kept.termPart_withCoefficient nonzero] at member
    cases List.mem_singleton.mp member
    rwa [kept.factorPart_withCoefficient one_ne_zero]

theorem isExpanded_sumOf {es : List Expr} (expanded : ∀ e ∈ es, e.IsExpanded) :
    (sumOf es).IsExpanded := by
  have canonical : ∀ e ∈ es, e.Canonical := fun e member => (expanded e member).canonical
  refine ⟨canonical_sumOf canonical, fun t q member => ?_⟩
  obtain ⟨e, summand, r, part⟩ := exists_of_mem_termPart_sumOf canonical member
  exact (expanded e summand).terms t r part

namespace Expr.IsExpanded

variable {e : Expr} (expanded : e.IsExpanded)

include expanded

theorem isMonomial_term {t : Expr} {q : Rat} (member : (t, q) ∈ e.termPart) :
    t.IsMonomial ∧ t.IsTerm :=
  have valid := expanded.canonical.valid_linearForm
  ⟨⟨valid.canonical t q member, expanded.terms t q member⟩, valid.bare t q member⟩

theorem isMonomial_scale {t : Expr} {q : Rat} (member : (t, q) ∈ e.termPart) (p : Rat) :
    (t.scale p).IsMonomial := by
  obtain ⟨monomial, term⟩ := expanded.isMonomial_term member
  rw [scale_eq_withCoefficient monomial.canonical term]
  by_cases zero : p = 0
  · rw [zero, withCoefficient_zero]
    exact isMonomial_number 0
  · exact isMonomial_withCoefficient (monomial.canonical.keptFactors term) zero monomial.factors

theorem isMonomial_summand : ∀ s ∈ summandsOf e, s.IsMonomial := by
  intro s member
  by_cases zero : e = Expr.number 0
  · rw [zero] at member
    cases List.mem_singleton.mp member
    exact isMonomial_number 0
  · rw [summandsOf_eq_summands expanded.canonical zero] at member
    rcases List.mem_append.mp member with member | member
    · obtain ⟨⟨t, q⟩, stored, rfl⟩ := List.mem_map.mp member
      exact expanded.isMonomial_scale stored q
    · rw [eq_number_of_mem_constantSummands member]
      exact isMonomial_number _

theorem scale (q : Rat) : (e.scale q).IsExpanded := by
  refine ⟨expanded.canonical.scale q, fun t r member => ?_⟩
  by_cases zero : q = 0
  · rw [zero, scale_zero] at member
    cases member
  have stored := expanded.terms
  cases expanded.canonical.shape with
  | number p =>
    rw [scale_number] at member
    cases member
  | sum form each =>
    rw [scale_sum zero] at member
    obtain ⟨⟨u, p⟩, inside, same⟩ := List.mem_map.mp member
    cases same
    exact stored t p inside
  | multiple nonzero kept =>
    have scaled := kept.termPart_withCoefficient (mul_ne_zero zero nonzero)
    rw [kept.scale_withCoefficient, scaled] at member
    cases List.mem_singleton.mp member
    rw [kept.termPart_withCoefficient nonzero] at stored
    exact stored _ _ (List.mem_singleton_self _)

/-- The polynomial is the sum of the monomials. -/
theorem polynomial_eq : e.polynomial = ((summandsOf e).map polynomial).sum := by
  have canonical := expanded.canonical
  rw [← polynomial_sumOf (canonical_summandsOf canonical), sumOf_summandsOf canonical]

end Expr.IsExpanded

section Distribution

variable {a b : Expr} (left : a.IsExpanded) (right : b.IsExpanded)

include left right

/-- Expanded expressions are multiplied out to an expanded one. -/
theorem exists_distribute : ∃ r, (distribute a b : Except Error Expr) = .ok r ∧ r.IsExpanded ∧
    r.polynomial = a.polynomial * b.polynomial := by
  let pairs := (summandsOf a).flatMap fun l => (summandsOf b).map fun r => [l, r]
  have each : ∀ pair ∈ pairs, ∃ r, (productOf pair : Except Error Expr) = .ok r ∧
      r.IsMonomial ∧ r.polynomial = (pair.map polynomial).prod := by
    intro pair member
    obtain ⟨l, first, member⟩ := List.mem_flatMap.mp member
    obtain ⟨r, second, rfl⟩ := List.mem_map.mp member
    refine exists_productOf_of_monomials ?_
    simp only [List.forall_mem_cons, List.not_mem_nil, false_imp_iff, implies_true, and_true]
    exact ⟨left.isMonomial_summand l first, right.isMonomial_summand r second⟩
  choose! product found monomial value using each
  have expanded : ∀ e ∈ pairs.map product, e.IsExpanded := by
    intro e member
    obtain ⟨pair, inside, rfl⟩ := List.mem_map.mp member
    exact (monomial pair inside).isExpanded
  refine ⟨sumOf (pairs.map product), ?_, isExpanded_sumOf expanded, ?_⟩
  · change (pairs.mapM productOf >>= summed) = _
    rw [mapM_eq_ok_map found]
    rfl
  · have values : pairs.map (polynomial ∘ product) =
        pairs.map fun pair => (pair.map polynomial).prod := List.map_congr_left value
    rw [polynomial_sumOf fun e member => (expanded e member).canonical, List.map_map, values,
      sum_pairs, ← left.polynomial_eq, ← right.polynomial_eq]

theorem Expr.IsExpanded.of_distribute {r : Expr}
    (found : (distribute a b : Except Error Expr) = .ok r) :
    r.IsExpanded ∧ r.polynomial = a.polynomial * b.polynomial := by
  obtain ⟨r', distributed, expanded, value⟩ := exists_distribute left right
  cases distributed.symm.trans found
  exact ⟨expanded, value⟩

end Distribution

section Expansion

variable {b : Expr} (base : b.IsExpanded)

include base

theorem exists_distributeTimes (n : Nat) {acc : Expr} (start : acc.IsExpanded) :
    ∃ r, (distributeTimes b n acc : Except Error Expr) = .ok r ∧ r.IsExpanded ∧
      r.polynomial = acc.polynomial * b.polynomial ^ n := by
  induction n generalizing acc with
  | zero => exact ⟨acc, rfl, start, by rw [pow_zero, mul_one]⟩
  | succ n ih =>
    obtain ⟨next, distributed, expanded, value⟩ := exists_distribute start base
    obtain ⟨r, found, expanded', value'⟩ := ih expanded
    refine ⟨r, ?_, expanded', ?_⟩
    · exact bind_eq_ok_iff.mpr ⟨next, distributed, found⟩
    · rw [value', value, mul_assoc, pow_succ']

theorem Expr.IsExpanded.of_expandPower {n : Nat} {r : Expr} (positive : 0 < n)
    (found : (expandPower b n : Except Error Expr) = .ok r) :
    r.IsExpanded ∧ r.polynomial = b.polynomial ^ n := by
  unfold SymbolicAlgebra.expandPower at found
  split at found
  · cases found
  · rw [observe_bind] at found
    obtain ⟨r', distributed, expanded, value⟩ := exists_distributeTimes base (n - 1) base
    cases distributed.symm.trans found
    exact ⟨expanded, by rw [value, ← pow_succ', Nat.sub_add_cancel positive]⟩

end Expansion

/-- The expansion, if there is one, is expanded and stands for the same polynomial. -/
def Expr.ExpandsSoundly (e : Expr) : Prop :=
  ∀ r, (expand e : Except Error Expr) = .ok r → r.IsExpanded ∧ r.polynomial = e.polynomial

section Nodes

theorem expandsSoundly_sum {constant : Rat} {terms : List Multiple}
    (each : ∀ t q, (t, q) ∈ terms → t.ExpandsSoundly) : (sum constant terms).ExpandsSoundly := by
  intro r found
  rw [expand_sum] at found
  obtain ⟨summands, expanded, rfl⟩ := map_eq_ok_iff.mp found
  have sound : ∀ multiple ∈ terms, ∀ s,
      scale multiple.2 <$> (expand multiple.1 : Except Error Expr) = .ok s →
      s.IsExpanded ∧ s.polynomial = C multiple.2 * multiple.1.polynomial := by
    rintro ⟨t, q⟩ stored s scaled
    obtain ⟨t', expansion, rfl⟩ := map_eq_ok_iff.mp scaled
    obtain ⟨inner, value⟩ := each t q stored t' expansion
    exact ⟨inner.scale q, by rw [polynomial_scale q inner.canonical, value]⟩
  have expanded_summands : ∀ s ∈ summands, s.IsExpanded := by
    intro s member
    obtain ⟨multiple, stored, result⟩ := exists_of_mem_mapM expanded member
    exact (sound multiple stored s result).1
  have values : summands.map polynomial =
      terms.map fun multiple => C multiple.2 * multiple.1.polynomial :=
    map_eq_map_of_mapM expanded fun multiple stored s result => (sound multiple stored s result).2
  have operands : ∀ s ∈ summands ++ [number constant], s.IsExpanded := by
    intro s member
    rcases List.mem_append.mp member with member | member
    · exact expanded_summands s member
    · cases List.mem_singleton.mp member
      exact (isMonomial_number constant).isExpanded
  refine ⟨isExpanded_sumOf operands, ?_⟩
  rw [polynomial_sumOf fun s member => (operands s member).canonical, List.map_append,
    List.sum_append, values, List.map_singleton, List.sum_singleton, polynomial_number, polynomial,
    polynomialOfTerms_eq, add_comm]

theorem expandsSoundly_power {b : Expr} {n : Int} (base : b.ExpandsSoundly) (positive : 0 < n) :
    (power b (number n)).ExpandsSoundly := by
  intro r found
  obtain ⟨b', exponent, expanded_base, expanded_exponent, outcome⟩ := expand_power_cases found
  have same : (expand (number n) : Except Error Expr) = .ok (number n) :=
    expand_eq_self (by simp) (by simp) (by simp)
  cases same.symm.trans expanded_exponent
  obtain ⟨expanded, value⟩ := base b' expanded_base
  rw [polynomial, natural_number, ← value]
  -- A base that is a sum is multiplied out; any other one is a monomial, and is raised.
  rcases outcome with ⟨c, terms, m, rfl, same, _, found⟩ | ⟨other, found⟩
  · obtain rfl : n = m := by exact_mod_cast number.inj same
    refine expanded.of_expandPower ?_ found
    omega
  · have lone := summandsOf_eq_singleton fun c terms same => other c terms n same rfl positive
    have monomial := expanded.isMonomial_summand _ (lone ▸ List.mem_singleton_self _)
    obtain ⟨monomial, value⟩ := monomial.of_powerOf positive found
    exact ⟨monomial.isExpanded, value⟩

theorem Expr.IsExpanded.of_foldlM {parts : List Expr} (sound : ∀ part ∈ parts, part.ExpandsSoundly)
    {acc r : Expr} (start : acc.IsExpanded)
    (found : parts.foldlM (fun acc part => do distribute acc (← expand part)) acc =
      (.ok r : Except Error Expr)) :
    r.IsExpanded ∧ r.polynomial = acc.polynomial * (parts.map polynomial).prod := by
  induction parts generalizing acc with
  | nil =>
    cases found
    exact ⟨start, (mul_one _).symm⟩
  | cons part rest ih =>
    obtain ⟨first, later⟩ := List.forall_mem_cons.mp sound
    rw [List.foldlM_cons] at found
    obtain ⟨next, step, found⟩ := bind_eq_ok_iff.mp found
    obtain ⟨part', expansion, distributed⟩ := bind_eq_ok_iff.mp step
    obtain ⟨inner, value⟩ := first part' expansion
    obtain ⟨expanded, product⟩ := start.of_distribute inner distributed
    obtain ⟨result, value'⟩ := ih later expanded found
    refine ⟨result, ?_⟩
    rw [value', product, value, List.map_cons, List.prod_cons, mul_assoc]

theorem expandsSoundly_product {q : Rat} {factors : List Factor}
    (parts : ∀ part ∈ partsOf factors, part.ExpandsSoundly) :
    (product q factors).ExpandsSoundly := by
  intro r found
  rw [expand_product] at found
  obtain ⟨expanded, value⟩ := (isMonomial_number q).isExpanded.of_foldlM parts found
  refine ⟨expanded, ?_⟩
  have products : (partsOf factors).map polynomial =
      factors.map fun factor => factor.1.polynomial ^ factor.2.natural := by
    rw [partsOf, List.map_map]
    exact List.map_congr_left fun factor _ => polynomial_ofFactor factor
  rw [value, products, polynomial_number, polynomial, polynomialOfFactors_eq]

theorem Expr.IsMonomial.expandsSoundly {e : Expr} (monomial : e.IsMonomial)
    (same : (expand e : Except Error Expr) = .ok e) : e.ExpandsSoundly := by
  intro r found
  cases same.symm.trans found
  exact ⟨monomial.isExpanded, rfl⟩

/-- Polynomials are expanded soundly: distribution leaves out nothing at any depth. -/
theorem Expr.IsPolynomial.expandsSoundly {e : Expr} (canonical : e.Canonical)
    (polynomial : e.IsPolynomial) : e.ExpandsSoundly := by
  induction e using Expr.induction with
  | number q =>
    exact (isMonomial_number q).expandsSoundly (expand_eq_self (by simp) (by simp) (by simp))
  | sum constant terms ih =>
    cases polynomial with
    | indeterminate form => exact absurd form id
    | sum each =>
      have valid := canonical.valid_linearForm
      exact expandsSoundly_sum fun t q stored =>
        ih t q stored (valid.canonical t q stored) (each t q stored)
  | product q factors ih =>
    obtain ⟨_, _, kept⟩ := canonical_product_iff.mp canonical
    cases polynomial with
    | indeterminate form => exact absurd form id
    | product bases exponents =>
      refine expandsSoundly_product fun part member => ?_
      obtain ⟨⟨b, x⟩, stored, rfl⟩ := List.mem_map.mp member
      obtain ⟨n, positive, rfl⟩ := exponents b x stored
      have base := (ih b _ stored).1 (kept.bases_canonical b _ stored) (bases b _ stored)
      unfold ofFactor
      split
      · exact base
      · exact expandsSoundly_power base positive
  | power b x base _ =>
    cases canonical with
    | power _ base_canonical =>
      cases polynomial with
      | indeterminate form => exact absurd form id
      | power inner positive => exact expandsSoundly_power (base base_canonical inner) positive
  | _ =>
    refine IsMonomial.expandsSoundly ?_ (expand_eq_self (by simp) (by simp) (by simp))
    exact isMonomial_of_isIndeterminate trivial canonical

end Nodes

namespace Expr.IsExpanded

variable {e : Expr} (expanded : e.IsExpanded)

include expanded

theorem coeff_eq (m : Expr →₀ ℕ) : coeff m e.polynomial = e.constantPart * coeff m 1 +
    combination (fun t => if degrees t.factorPart = m then 1 else 0) e.termPart := by
  rw [coeff_polynomial]
  refine congrArg (_ + ·) (combination_congr fun t q member => ?_)
  obtain ⟨monomial, term⟩ := expanded.isMonomial_term member
  rw [monomial.polynomial_eq, coeff_monomial, coefficientPart_of_isTerm term]

theorem coeff_zero : coeff 0 e.polynomial = coordinate none e := by
  have vanishes : combination (fun t => if degrees t.factorPart = 0 then (1 : Rat) else 0)
      e.termPart = 0 := by
    refine List.sum_eq_zero fun c member => ?_
    obtain ⟨⟨t, q⟩, stored, rfl⟩ := List.mem_map.mp member
    obtain ⟨monomial, term⟩ := expanded.isMonomial_term stored
    dsimp only
    rw [if_neg (monomial.degrees_ne_zero term), mul_zero]
  rw [expanded.coeff_eq, vanishes, add_zero, coeff_zero_one, mul_one]
  rfl

theorem coeff_degrees {u : Expr} (monomial : u.IsMonomial) (term : u.IsTerm) :
    coeff (degrees u.factorPart) e.polynomial = coordinate (some u) e := by
  have one : coeff (degrees u.factorPart) (1 : MvPolynomial Expr ℚ) = 0 := by
    rw [coeff_one, if_neg (monomial.degrees_ne_zero term).symm]
  rw [expanded.coeff_eq, one, mul_zero, zero_add, coordinate, multiplicityOf]
  refine combination_congr fun t q member => ?_
  obtain ⟨left, left_term⟩ := expanded.isMonomial_term member
  exact if_congr ⟨left.ext left_term monomial term, fun same => by rw [same]⟩ rfl rfl

/-- The polynomial tells expanded expressions apart. -/
theorem ext {r : Expr} (right : r.IsExpanded) (equal : e.polynomial = r.polynomial) : e = r := by
  refine expanded.canonical.ext right.canonical fun k => ?_
  cases k with
  | none => rw [← expanded.coeff_zero, ← right.coeff_zero, equal]
  | some u =>
    by_cases monomial : u.IsMonomial ∧ u.IsTerm
    · obtain ⟨monomial, term⟩ := monomial
      rw [← expanded.coeff_degrees monomial term, ← right.coeff_degrees monomial term, equal]
    · have absent {a : Expr} (expanded : a.IsExpanded) : coordinate (some u) a = 0 :=
        multiplicityOf_eq_zero fun t q member same =>
          monomial (same ▸ expanded.isMonomial_term member)
      rw [absent expanded, absent right]

end Expr.IsExpanded

theorem isPolynomial_sum_pair {a b : Expr} {c p q : Rat} (left : a.IsPolynomial)
    (right : b.IsPolynomial) : (sum c [(a, p), (b, q)]).IsPolynomial := by
  refine .sum ?_
  simp only [List.mem_cons, Prod.mk.injEq, List.not_mem_nil, or_false]
  rintro t r (⟨rfl, rfl⟩ | ⟨rfl, rfl⟩)
  · exact left
  · exact right

/-- The expressions `x + c*sin(y)` and `x^2 + c*sin(y)^2`. -/
def shiftedBySine (c : Rat) : Expr :=
  sum 0 [(symbol "x", 1), (sin (symbol "y"), c)]

def combinedSquares (c : Rat) : Expr :=
  sum 0 [(power (symbol "x") (number 2), 1), (power (sin (symbol "y")) (number 2), c)]

theorem shiftedBySine_spec {c : Rat} (nonzero : c ≠ 0) :
    (shiftedBySine c).Canonical ∧ (shiftedBySine c).IsPolynomial :=
  ⟨canonical_sum_pair (.symbol "x") (.sin (by simp) (.symbol "y")) trivial trivial (by cbv)
    one_ne_zero nonzero, isPolynomial_sum_pair (.indeterminate trivial) (.indeterminate trivial)⟩

theorem combinedSquares_spec {c : Rat} (nonzero : c ≠ 0) :
    (combinedSquares c).Canonical ∧ (combinedSquares c).IsPolynomial := by
  have x := canonical_powerOf (b := symbol "x") (e := number 2) (by cbv) (.symbol "x")
    (canonical_number 2)
  have s := canonical_powerOf (b := sin (symbol "y")) (e := number 2) (by cbv)
    (.sin (by simp) (.symbol "y")) (canonical_number 2)
  refine ⟨canonical_sum_pair x s trivial trivial (by cbv) one_ne_zero nonzero,
    isPolynomial_sum_pair ?_ ?_⟩
  · exact .power (n := 2) (.indeterminate trivial) (by decide)
  · exact .power (n := 2) (.indeterminate trivial) (by decide)

/-- Expansion decides whether polynomials are equal: they are if and only if their expansions are
the same expression. -/
theorem expand_eq_expand_iff {p q p' q' : Expr} (canonical_p : p.Canonical)
    (canonical_q : q.Canonical) (polynomial_p : p.IsPolynomial) (polynomial_q : q.IsPolynomial)
    (found_p : (expand p : Except Error Expr) = .ok p')
    (found_q : (expand q : Except Error Expr) = .ok q') :
    p' = q' ↔ p.polynomial = q.polynomial := by
  obtain ⟨expanded_p, value_p⟩ := polynomial_p.expandsSoundly canonical_p p' found_p
  obtain ⟨expanded_q, value_q⟩ := polynomial_q.expandsSoundly canonical_q q' found_q
  rw [← value_p, ← value_q]
  exact ⟨congrArg polynomial, expanded_p.ext expanded_q⟩

/-- The product of `x - sin(y)` and `x + sin(y)` is the difference of the squares, but the square of
`x + sin(y)` is not their sum. -/
theorem expand_eq_expand_iff_squares :
    (product 1 [(shiftedBySine (-1), number 1), (shiftedBySine 1, number 1)]).polynomial =
      (combinedSquares (-1)).polynomial ∧
    (power (shiftedBySine 1) (number 2)).polynomial ≠ (combinedSquares 1).polynomial := by
  have minus := @shiftedBySine_spec (-1) (by decide)
  have plus := @shiftedBySine_spec 1 (by decide)
  have difference := @combinedSquares_spec (-1) (by decide)
  have total := @combinedSquares_spec 1 (by decide)
  have product_canonical :
      (product 1 [(shiftedBySine (-1), number 1), (shiftedBySine 1, number 1)]).Canonical :=
    @canonical_productOf [shiftedBySine (-1), shiftedBySine 1] _ (by cbv)
      (canonical_pair minus.1 plus.1)
  have product_polynomial :
      (product 1 [(shiftedBySine (-1), number 1), (shiftedBySine 1, number 1)]).IsPolynomial := by
    refine .product ?_ ?_
    · simp only [List.mem_cons, Prod.mk.injEq, List.not_mem_nil, or_false]
      rintro b e (⟨rfl, rfl⟩ | ⟨rfl, rfl⟩)
      · exact minus.2
      · exact plus.2
    · simp only [List.mem_cons, Prod.mk.injEq, List.not_mem_nil, or_false]
      rintro b e (⟨rfl, rfl⟩ | ⟨rfl, rfl⟩) <;> exact ⟨1, one_pos, rfl⟩
  have square : (power (shiftedBySine 1) (number 2)).Canonical :=
    canonical_powerOf (by cbv) plus.1 (canonical_number 2)
  constructor
  · exact (expand_eq_expand_iff product_canonical difference.1 product_polynomial difference.2
      (by cbv) (by cbv)).mp rfl
  · intro same
    have equal := (expand_eq_expand_iff square total.1 (.power (n := 2) plus.2 (by decide)) total.2
      (by cbv) (by cbv)).mpr same
    simp at equal

end SymbolicAlgebra
