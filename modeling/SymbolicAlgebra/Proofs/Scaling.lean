import SymbolicAlgebra.Proofs.LinearForm

namespace SymbolicAlgebra

open SymbolicAlgebra.Expr

theorem insertFactor_before {factor : Factor} {factors : List Factor}
    (least : ∀ other ∈ factors, factor.1.compare other.1 = .lt) :
    insertFactor factor factors = factor :: factors := by
  cases factors with
  | nil => rfl
  | cons head rest =>
    obtain ⟨b, e⟩ := head
    have less : factor.1.compare b = .lt := least (b, e) (List.mem_cons_self ..)
    rw [insertFactor, less]

/-- Factors in order need no merging. -/
theorem foldr_insertFactor {factors : List Factor} (increasing : Increasing factors) :
    factors.foldr insertFactor [] = factors := by
  induction factors with
  | nil => rfl
  | cons head rest ih =>
    obtain ⟨least, increasing_rest⟩ := List.pairwise_cons.mp increasing
    rw [List.foldr_cons, ih increasing_rest]
    exact insertFactor_before least

theorem settled_add_ofFactor (settled : Settled) {b e : Expr} (factor : CanonicalFactor b e) :
    settled.add (b, e) (ofFactor (b, e)) =
      ⟨settled.coefficient, (b, e) :: settled.kept, settled.rewritten⟩ := by
  have back := toFactor_ofFactor factor
  have part := factorPart_ofFactor factor
  unfold Settled.add
  split
  · rename_i q whole
    rw [whole] at part
    cases part
  · rename_i q factors whole
    rw [whole] at back
    obtain ⟨rfl, rfl⟩ := Prod.mk.inj back
    exact absurd rfl ((factor.unmerged rfl).2 q factors)
  · rw [if_pos back]

/-- Canonical factors settle as they are. -/
theorem settledFactors_of_canonical {factors : List Factor}
    (each : ∀ b e, (b, e) ∈ factors → CanonicalFactor b e) :
    (settledFactors factors : Except Error Settled) = .ok ⟨1, factors, []⟩ := by
  induction factors with
  | nil => exact settledFactors_nil
  | cons head rest ih =>
    obtain ⟨b, e⟩ := head
    have factor := each b e (List.mem_cons_self ..)
    have tail := ih fun c f member => each c f (List.mem_cons_of_mem _ member)
    have nonzero : ¬ e.isZero = true := fun zero => factor.exponent (isNumber_iff.mp zero)
    rw [settledFactors_cons, if_neg nonzero, powerOf_of_canonicalFactor factor, tail]
    exact congrArg Except.ok (settled_add_ofFactor _ factor)

theorem assembleProduct_one_lone (factor : Factor) :
    assembleProduct 1 [factor] = ofFactor factor := by
  unfold assembleProduct
  exact if_pos rfl

theorem assembleProduct_lone_sum (q c : Rat) (terms : List Multiple) :
    assembleProduct q [(sum c terms, number 1)] = (sum c terms).scale q := by
  unfold assembleProduct
  by_cases one : q = 1
  · rw [one, scale_one]
    exact if_pos rfl
  · exact if_neg one

theorem assembleProduct_eq_product {q : Rat} {factors : List Factor} (nonempty : factors ≠ [])
    (not_lone : q = 1 → factors.length ≠ 1)
    (not_lone_sum : ∀ c terms, factors ≠ [(sum c terms, number 1)]) :
    assembleProduct q factors = product q factors := by
  match factors with
  | [] => exact absurd rfl nonempty
  | [(b, e)] =>
    have other : q ≠ 1 := fun one => not_lone one rfl
    simp only [assembleProduct, if_neg other]
    split
    · rename_i c terms exponent
      obtain rfl := isNumber_iff.mp exponent
      exact absurd rfl (not_lone_sum c terms)
    · rfl
  | _ :: _ :: _ => rfl

theorem assembleProduct_eq_withCoefficient {factors : List Factor} (kept : KeptFactors factors)
    {q : Rat} (nonzero : q ≠ 0) : assembleProduct q factors = withCoefficient q factors := by
  rcases kept.withCoefficient_cases nonzero with ⟨b, e, rfl, rfl, whole⟩ | ⟨not_lone, whole⟩
  · rw [whole, assembleProduct_one_lone]
  · rw [whole, assembleProduct_eq_product kept.nonempty not_lone kept.not_lone_sum]

/-- A number times the factors of an expression, put together again, is a multiple of it. -/
theorem assembleProduct_factorPart {q : Rat} {e : Expr} (canonical : Canonical e)
    (nonzero : q * e.coefficientPart ≠ 0) :
    assembleProduct (q * e.coefficientPart) e.factorPart = e.scale q := by
  cases canonical.shape with
  | number r => exact (scale_number q r).symm
  | @sum constant terms form each =>
    have one : (sum constant terms).coefficientPart = 1 := rfl
    rw [one, mul_one]
    exact assembleProduct_lone_sum q constant terms
  | multiple coefficient kept =>
    rw [kept.coefficientPart_withCoefficient coefficient] at nonzero ⊢
    rw [kept.factorPart_withCoefficient coefficient, kept.scale_withCoefficient]
    exact assembleProduct_eq_withCoefficient kept nonzero

theorem scale_eq_zero_of_coefficientPart {q : Rat} {e : Expr} (canonical : Canonical e)
    (vanishes : q * e.coefficientPart = 0) : e.scale q = number 0 := by
  rcases mul_eq_zero.mp vanishes with rfl | part
  · exact scale_zero e
  · cases canonical.shape with
    | number r =>
      obtain rfl : r = 0 := part
      rw [scale_number, mul_zero]
    | sum form each => cases part
    | multiple nonzero kept =>
      rw [kept.coefficientPart_withCoefficient nonzero] at part
      exact absurd part nonzero

theorem eq_zero_of_coefficientPart {e : Expr} (canonical : e.Canonical)
    (vanishes : e.coefficientPart = 0) : e = number 0 := by
  have whole : e.scale 1 = number 0 :=
    scale_eq_zero_of_coefficientPart canonical (by rw [vanishes, mul_zero])
  rwa [scale_one] at whole

/-- Operands that are an expression and a number, in whatever order, need no merging. -/
theorem productOf_eq_scale {q : Rat} {e : Expr} {operands : List Expr} (canonical : Canonical e)
    (coefficient : collectCoefficient operands = q * e.coefficientPart)
    (parts : operands.flatMap factorPart = e.factorPart) :
    (productOf operands : Except Error Expr) = .ok (e.scale q) := by
  obtain ⟨increasing, factors⟩ := canonical.factorPart
  have collected : collectFactors operands = e.factorPart := by
    rw [collectFactors, parts]
    exact foldr_insertFactor increasing
  have settled := settledFactors_of_canonical fun b x member => (factors b x member).1
  rw [← collected, settledFactors_eq_ok_iff] at settled
  rw [productOf_eq_ok_iff]
  by_cases vanishes : q * e.coefficientPart = 0
  · rw [scale_eq_zero_of_coefficientPart canonical vanishes]
    exact .zero (coefficient.trans vanishes)
  · have assembled := ProductRun.assembled settled (by rwa [coefficient, mul_one]) rfl
    rw [coefficient, mul_one, collected, assembleProduct_factorPart canonical vanishes] at assembled
    exact assembled

/-- A number times an expression is the scaled expression. -/
theorem productOf_number (q : Rat) {e : Expr} (canonical : Canonical e) :
    (productOf [number q, e] : Except Error Expr) = .ok (e.scale q) := by
  refine productOf_eq_scale canonical ?_ ?_
  · rw [collectCoefficient, collectCoefficient, collectCoefficient, mul_one]
    rfl
  · rw [List.flatMap_cons, List.flatMap_singleton]
    rfl

theorem productOf_number_right (q : Rat) {e : Expr} (canonical : Canonical e) :
    (productOf [e, number q] : Except Error Expr) = .ok (e.scale q) := by
  refine productOf_eq_scale canonical ?_ ?_
  · rw [collectCoefficient, collectCoefficient, collectCoefficient, mul_one, mul_comm]
    rfl
  · rw [List.flatMap_cons, List.flatMap_singleton]
    exact List.append_nil _

theorem flatMap_factorPart_partsOf {factors : List Factor}
    (each : ∀ b e, (b, e) ∈ factors → CanonicalFactor b e) :
    (partsOf factors).flatMap factorPart = factors := by
  induction factors with
  | nil => rfl
  | cons head rest ih =>
    obtain ⟨b, e⟩ := head
    have parts : partsOf ((b, e) :: rest) = ofFactor (b, e) :: partsOf rest := rfl
    rw [parts, List.flatMap_cons, factorPart_ofFactor (each b e (List.mem_cons_self ..)),
      ih fun c f member => each c f (List.mem_cons_of_mem _ member)]
    rfl

end SymbolicAlgebra
