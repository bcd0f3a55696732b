import SymbolicAlgebra.Proofs.RaisedFactors

namespace SymbolicAlgebra

open SymbolicAlgebra.Expr

/-- Nothing but zero is a proper multiple of itself. -/
theorem eq_zero_of_scale_eq_self {e : Expr} (canonical : e.Canonical) {p : Rat} (other : p ≠ 1)
    (same : e.scale p = e) : e = number 0 := by
  refine canonical.ext (canonical_number 0) fun k => ?_
  have multiple := coordinate_scale canonical p k
  rw [same] at multiple
  have vanishes : (p - 1) * coordinate k e = 0 := by
    rw [sub_mul, one_mul, ← multiple, sub_self]
  rw [coordinate_number_zero]
  exact (mul_eq_zero.mp vanishes).resolve_left (sub_ne_zero.mpr other)

/-- A factor that is kept is kept with its exponent negated. -/
theorem canonicalFactor_negate {b e : Expr} (factor : CanonicalFactor b e)
    (exponent : e.Canonical) : CanonicalFactor b (e.scale (-1)) := by
  have number_iff {q : Rat} : e.scale (-1) = number q ↔ e = number (-q) := by
    rw [scale_eq_number_iff exponent (by decide), show (-1 : Rat)⁻¹ * q = -q by ring]
  have integral {n : Int} (integer : e = number n) : CanonicalFactor b (e.scale (-1)) := by
    subst integer
    have nonzero : -n ≠ 0 := fun zero => factor.exponent (by rw [neg_eq_zero.mp zero]; simp)
    have negated := canonicalFactor_of_not_raisesInside
      (not_raisesInside_of_canonicalFactor factor) nonzero
    rwa [scale_number, neg_one_mul, ← Int.cast_neg]
  rcases canonicalFactor_iff.mp factor with ⟨one, _⟩ | canonical
  · exact integral (n := 1) (by rw [one, Int.cast_one])
  by_cases integer : ∃ n : Int, e = number n
  · obtain ⟨n, integer⟩ := integer
    exact integral integer
  · refine canonicalFactor_iff.mpr (.inr ⟨fun same => ?_, fun same => ?_, canonical.base_ne_one,
      fun zero => ?_, fun _ => integer?_eq_none_iff.mpr fun n same => ?_⟩)
    · exact canonical.exponent_ne_zero (by rw [number_iff.mp same, neg_zero])
    · exact integer ⟨-1, by rw [number_iff.mp same]; simp⟩
    · refine number?_eq_none_iff.mpr fun q same => ?_
      exact number?_eq_none_iff.mp (canonical.symbolic_over_zero zero) _ (number_iff.mp same)
    · exact integer ⟨-n, by rw [number_iff.mp same, Int.cast_neg]⟩

section Quotient

variable {a : Expr} (canonical : a.Canonical)

include canonical

theorem canonicalFactor_reciprocal : ∀ b x, (b, x) ∈ a.factorPart →
    CanonicalFactor b (x.scale ((-1 : Int) : Rat)) := by
  intro b x stored
  obtain ⟨factor, _, exponent⟩ := canonical.factorPart.2 b x stored
  rw [Int.cast_neg, Int.cast_one]
  exact canonicalFactor_negate factor exponent

theorem reciprocal_eq {r : Expr}
    (found : (powerOf a (number (-1)) : Except Error Expr) = .ok r) :
    r = assembleProduct a.coefficientPart⁻¹ (raisedFactors (-1) a.factorPart) := by
  rw [← zpow_neg_one]
  exact powerOf_eq_assembleProduct canonical (by decide) (canonicalFactor_reciprocal canonical)
    found

/-- The factors of the reciprocal come back whole, unless they are a lone sum to be scaled. -/
theorem reciprocal_parts {r : Expr} (nonzero : a ≠ number 0)
    (other : ∀ q c terms, a ≠ product q [(sum c terms, number (-1))])
    (found : (powerOf a (number (-1)) : Except Error Expr) = .ok r) :
    r.coefficientPart = a.coefficientPart⁻¹ ∧ r.factorPart = raisedFactors (-1) a.factorPart := by
  have collected := canonical.merged_factorPart.collected.raisedFactors (-1)
  rw [reciprocal_eq canonical found]
  have coefficient := mt (eq_zero_of_coefficientPart canonical) nonzero
  refine parts_assembleProduct (inv_ne_zero coefficient) collected
    (fun b x stored => ?_) fun c terms lone => ?_
  · obtain ⟨f, inside, rfl⟩ := mem_raisedFactors_iff.mp stored
    exact canonicalFactor_reciprocal canonical b f inside
  · cases a with
    | number q => cases lone
    | product q factors =>
      obtain ⟨_, _, kept⟩ := canonical_product_iff.mp canonical
      obtain ⟨⟨b, f⟩, rfl, same⟩ := List.map_eq_singleton_iff.mp lone
      obtain ⟨rfl, negated⟩ := Prod.mk.inj same
      have exponent := kept.exponents_canonical _ f (List.mem_singleton_self _)
      have minus := (scale_eq_number_iff exponent (by decide)).mp negated
      rw [show ((-1 : Int) : Rat)⁻¹ * 1 = -1 by norm_num] at minus
      exact absurd (minus ▸ rfl) (other q c terms)
    | _ => exact inv_one

/-- The factors of an expression cancel against those of its reciprocal. -/
theorem mergedFactors_reciprocal {r : Expr} (reciprocal : r.Canonical)
    (parts : r.factorPart = raisedFactors (-1) a.factorPart) : mergedFactors [a, r] = [] := by
  refine (merged_mergedFactors (canonical_pair canonical reciprocal)).ext
    ⟨collected_nil, fun b e stored => by cases stored⟩ fun k b => ?_
  have factors : [a, r].flatMap factorPart = a.factorPart ++ raisedFactors (-1) a.factorPart := by
    rw [List.flatMap_cons, List.flatMap_singleton, parts]
  rw [exponentCoordinate_mergedFactors (canonical_pair canonical reciprocal), factors,
    exponentCoordinate_append, exponentCoordinate_raisedFactors k b (-1) fun c e stored =>
      (canonical.factorPart.2 c e stored).2.2]
  change _ + -1 * _ = (0 : Rat)
  ring

end Quotient

theorem mergedFactors_pair {operands : List Expr} {b c e f : Expr}
    (parts : operands.flatMap factorPart = [(b, e), (c, f)]) (other : b ≠ c)
    (first : e ≠ number 0) (second : f ≠ number 0) :
    (mergedFactors operands).Perm [(b, e), (c, f)] := by
  have counts {e : Expr} (nonzero : e ≠ number 0) : (!e.isZero) = true := by
    rwa [Bool.not_eq_true', ← Bool.not_eq_true, isZero, isNumber_iff]
  have collected : (collectFactors operands).Perm [(b, e), (c, f)] := by
    rw [collectFactors, parts, List.foldr_cons, List.foldr_cons, List.foldr_nil, insertFactor,
      insertFactor]
    split
    · exact .refl _
    · rename_i same
      exact absurd (compare_eq_iff.mp same) other
    · exact .swap ..
  have nonzero : [(b, e), (c, f)].filter (fun factor => !factor.2.isZero) = [(b, e), (c, f)] := by
    simp [counts first, counts second]
  rw [mergedFactors, ← nonzero]
  exact collected.filter _

/-- A number times the reciprocal of a sum does not cancel: the number is multiplied into the sum
that the reciprocal gives back, and what comes of it is another base. -/
theorem productOf_scaled_sum {c p q : Rat} {terms : List Multiple}
    (canonical : (product q [(sum c terms, number (-1))]).Canonical) (nonzero : p ≠ 0)
    (other : p ≠ 1) :
    (productOf [product q [(sum c terms, number (-1))], (sum c terms).scale p] :
      Except Error Expr) ≠ .ok (number 1) := by
  obtain ⟨coefficient, _, kept⟩ := canonical_product_iff.mp canonical
  have base := kept.bases_canonical _ _ (List.mem_singleton_self _)
  have different : sum c terms ≠ (sum c terms).scale p := fun same => by
    cases eq_zero_of_scale_eq_self base other same.symm
  obtain ⟨c', terms', scaled⟩ : ∃ c' terms', (sum c terms).scale p = sum c' terms' := by
    rw [scale_sum nonzero]
    exact ⟨_, _, rfl⟩
  rw [scaled] at different ⊢
  have minus : CanonicalFactor (sum c terms) (number (-1)) :=
    canonicalFactor_of_not_raisesInside (n := -1) Bool.false_ne_true (by decide)
  have plus : CanonicalFactor (sum c' terms') (number 1) :=
    canonicalFactor_of_not_raisesInside (n := 1) Bool.false_ne_true (by decide)
  have merged : (mergedFactors [product q [(sum c terms, number (-1))], sum c' terms']).Perm
      [(sum c terms, number (-1)), (sum c' terms', number 1)] :=
    mergedFactors_pair rfl different minus.exponent plus.exponent
  have total : collectCoefficient [product q [(sum c terms, number (-1))], sum c' terms'] = q := by
    simp [collectCoefficient, Expr.coefficientPart]
  rw [productOf_of_canonicalFactors fun b e stored => ?_, total, if_neg coefficient]
  · obtain ⟨x, y, two⟩ := List.length_eq_two.mp merged.length_eq
    rw [two]
    exact fun same => by cases same
  · rcases List.mem_pair.mp (merged.mem_iff.mp stored) with same | same <;> cases same
    · exact minus
    · exact plus

/-- An expression divided by itself is one, unless it is a number times the reciprocal of a sum. -/
theorem quotientOf_self {a r : Expr} (canonical : a.Canonical) (nonzero : a ≠ number 0)
    (found : (quotientOf a a : Except Error Expr) = .ok r) :
    r = number 1 ↔ ∀ q c terms, a ≠ product q [(sum c terms, number (-1))] := by
  obtain ⟨reciprocal, raised, found⟩ := bind_eq_ok_iff.mp found
  have coefficient := mt (eq_zero_of_coefficientPart canonical) nonzero
  have canonical_reciprocal := canonical_powerOf raised canonical (canonical_number _)
  have whole := reciprocal_eq canonical raised
  constructor
  · rintro rfl q c terms rfl
    obtain ⟨_, not_lone, _⟩ := canonical_product_iff.mp canonical
    have exponent : (number (-1)).scale ((-1 : Int) : Rat) = number 1 := by decide +kernel
    have lone : raisedFactors (-1) [(sum c terms, number (-1))] = [(sum c terms, number 1)] :=
      congrArg (fun e => [(sum c terms, e)]) exponent
    rw [Expr.coefficientPart, Expr.factorPart, lone, assembleProduct_lone_sum] at whole
    rw [whole] at found
    exact productOf_scaled_sum canonical (inv_ne_zero coefficient)
      (fun one => not_lone (inv_eq_one.mp one) rfl) found
  · intro other
    obtain ⟨inverse, parts⟩ := reciprocal_parts canonical nonzero other raised
    have cancelled := mergedFactors_reciprocal canonical canonical_reciprocal parts
    have total : collectCoefficient [a, reciprocal] = 1 := by
      rw [collectCoefficient, collectCoefficient, collectCoefficient, mul_one, inverse,
        mul_inv_cancel₀ coefficient]
    have one := @productOf_of_canonicalFactors [a, reciprocal]
      (by rw [cancelled]; exact fun b e stored => by cases stored)
    rw [found, total, cancelled, if_neg one_ne_zero] at one
    exact Except.ok.inj one

theorem quotientOf_self_powers :
    (quotientOf (product (2 / 3) [(symbol "x", number 2), (symbol "y", symbol "z")])
      (product (2 / 3) [(symbol "x", number 2), (symbol "y", symbol "z")]) : Except Error Expr) =
      .ok (number 1) := by
  have square : (power (symbol "x") (number 2)).Canonical :=
    canonical_powerOf (b := symbol "x") (e := number 2) (by cbv) (.symbol "x") (canonical_number 2)
  have power : (power (symbol "y") (symbol "z")).Canonical :=
    canonical_powerOf (b := symbol "y") (e := symbol "z") (by cbv) (.symbol "y") (.symbol "z")
  have canonical :
      (product (2 / 3) [(symbol "x", number 2), (symbol "y", symbol "z")]).Canonical :=
    @canonical_productOf [number (2 / 3), .power _ _, .power _ _] _ (by cbv)
      (List.forall_mem_cons.mpr ⟨canonical_number _, canonical_pair square power⟩)
  obtain ⟨r, found⟩ : ∃ r, (quotientOf
      (product (2 / 3) [(symbol "x", number 2), (symbol "y", symbol "z")])
      (product (2 / 3) [(symbol "x", number 2), (symbol "y", symbol "z")]) :
      Except Error Expr) = .ok r := ⟨number 1, by cbv⟩
  rw [found, (quotientOf_self canonical (by simp) found).mpr (by simp)]

/-- The expression `2/(x + 1)`. -/
def scaledReciprocal : Expr :=
  product 2 [(sum 1 [(symbol "x", 1)], number (-1))]

/-- The quotient of `2/(x + 1)` by itself comes out as `2*(x/2 + 1/2)/(x + 1)`, not as one. -/
theorem quotientOf_self_scaled : scaledReciprocal.Canonical ∧ scaledReciprocal ≠ number 0 ∧
    ∃ r, (quotientOf scaledReciprocal scaledReciprocal : Except Error Expr) = .ok r ∧
      r = product 2 [(sum 1 [(symbol "x", 1)], number (-1)),
        (sum (1 / 2) [(symbol "x", 1 / 2)], number 1)] ∧ r ≠ number 1 := by
  have reciprocal : (power (sum 1 [(symbol "x", 1)]) (number (-1))).Canonical :=
    canonical_powerOf (b := sum 1 [(symbol "x", 1)]) (e := number (-1)) (by cbv)
      (canonical_successor "x") (canonical_number _)
  refine ⟨?_, by simp [scaledReciprocal], _, by cbv, rfl, by simp⟩
  exact @canonical_productOf [number 2, power _ _] scaledReciprocal (by cbv)
    (canonical_pair (canonical_number 2) reciprocal)

end SymbolicAlgebra
