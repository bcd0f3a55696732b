import SymbolicAlgebra.Proofs.ScaledProducts
import SymbolicAlgebra.Proofs.Summands

namespace SymbolicAlgebra

open SymbolicAlgebra.Expr

/-- The expression is the other one times a number, which is not zero. -/
def Expr.IsMultipleOf (r e : Expr) : Prop :=
  ∃ q : Rat, q ≠ 0 ∧ r = e.scale q

theorem isMultipleOf_self (e : Expr) : e.IsMultipleOf e :=
  ⟨1, one_ne_zero, (scale_one e).symm⟩

theorem Expr.IsMultipleOf.trans {a b c : Expr} (canonical : c.Canonical) (first : a.IsMultipleOf b)
    (second : b.IsMultipleOf c) : a.IsMultipleOf c := by
  obtain ⟨p, p_nonzero, rfl⟩ := first
  obtain ⟨q, q_nonzero, rfl⟩ := second
  exact ⟨p * q, mul_ne_zero p_nonzero q_nonzero, scale_scale p q canonical⟩

theorem Expr.IsMultipleOf.symm {a b : Expr} (canonical : b.Canonical)
    (multiple : a.IsMultipleOf b) : b.IsMultipleOf a := by
  obtain ⟨q, nonzero, rfl⟩ := multiple
  refine ⟨q⁻¹, inv_ne_zero nonzero, ?_⟩
  rw [scale_scale _ _ canonical, inv_mul_cancel₀ nonzero, scale_one]

section NotSum

variable {e : Expr} (canonical : e.Canonical) (other : ∀ c terms, e ≠ sum c terms)

include canonical other

/-- A number reaches no further than the coefficient, unless it meets a sum. -/
theorem parts_scale {q : Rat} (nonzero : q ≠ 0) :
    (e.scale q).coefficientPart = q * e.coefficientPart ∧
      (e.scale q).factorPart = e.factorPart := by
  cases canonical.shape with
  | number r =>
    rw [scale_number]
    exact ⟨rfl, rfl⟩
  | @sum c terms => exact absurd rfl (other c terms)
  | multiple coefficient kept =>
    have total := mul_ne_zero nonzero coefficient
    rw [kept.scale_withCoefficient, kept.coefficientPart_withCoefficient total,
      kept.coefficientPart_withCoefficient coefficient, kept.factorPart_withCoefficient total,
      kept.factorPart_withCoefficient coefficient]
    exact ⟨rfl, rfl⟩

theorem Expr.IsMultipleOf.ne_sum {r : Expr} (multiple : r.IsMultipleOf e) :
    ∀ c terms, r ≠ sum c terms := by
  obtain ⟨q, nonzero, rfl⟩ := multiple
  cases canonical.shape with
  | number v =>
    rw [scale_number]
    simp
  | @sum c terms => exact absurd rfl (other c terms)
  | multiple coefficient kept =>
    rw [kept.scale_withCoefficient]
    exact kept.withCoefficient_ne_sum (mul_ne_zero nonzero coefficient)

/-- What is no sum adds a single term, of which it is a multiple. -/
theorem isMultipleOf_of_mem_termPart {t : Expr} {q : Rat} (member : (t, q) ∈ e.termPart) :
    e.IsMultipleOf t := by
  cases canonical.shape with
  | number r => cases member
  | @sum c terms => exact absurd rfl (other c terms)
  | multiple coefficient kept =>
    rw [kept.termPart_withCoefficient coefficient] at member
    obtain ⟨rfl, rfl⟩ := Prod.mk.inj (List.mem_singleton.mp member)
    refine ⟨q, coefficient, ?_⟩
    rw [kept.scale_withCoefficient, mul_one]

/-- In a product a multiple of an operand gives a multiple of the product. -/
theorem productOf_scale_cons {q : Rat} (nonzero : q ≠ 0) {others : List Expr}
    (canonical_others : ∀ e ∈ others, e.Canonical) :
    (productOf (e.scale q :: others) : Except Error Expr) =
      scale q <$> productOf (e :: others) := by
  obtain ⟨coefficient, factors⟩ := parts_scale canonical other nonzero
  rw [← productOf_number_cons nonzero (List.forall_mem_cons.mpr ⟨canonical, canonical_others⟩)]
  refine productOf_congr ?_ ?_
  · rw [collectCoefficient_number_cons, collectCoefficient, coefficient, collectCoefficient,
      mul_assoc]
  · rw [mergedFactors_number_cons, mergedFactors, mergedFactors, collectFactors, collectFactors,
      List.flatMap_cons, factors, List.flatMap_cons]

end NotSum

/-- A sum of expressions that are no sums collects them: each of its summands is a multiple of one
of them, unless nothing is left. -/
theorem isMultipleOf_of_mem_summandsOf {summands : List Expr}
    (canonical : ∀ e ∈ summands, e.Canonical) (others : ∀ e ∈ summands, ∀ c terms, e ≠ sum c terms)
    {s : Expr} (member : s ∈ summandsOf (sumOf summands)) :
    s = number 0 ∨ ∃ e ∈ summands, s.IsMultipleOf e := by
  have whole := canonical_sumOf canonical
  by_cases zero : sumOf summands = number 0
  · rw [zero] at member
    exact .inl (List.mem_singleton.mp member)
  rw [summandsOf_eq_summands whole zero] at member
  rcases List.mem_append.mp member with member | member
  · obtain ⟨⟨t, q⟩, stored, rfl⟩ := List.mem_map.mp member
    obtain ⟨e, summand, r, part⟩ := exists_of_mem_termPart_sumOf canonical stored
    have canonical_term := whole.valid_linearForm.canonical t q stored
    have nonzero := whole.valid_linearForm.reduced.multiplicity t q stored
    have back := (isMultipleOf_of_mem_termPart (canonical e summand) (others e summand) part).symm
      canonical_term
    have multiple : (t.scale q).IsMultipleOf t := ⟨q, nonzero, rfl⟩
    exact .inr ⟨e, summand, multiple.trans (canonical e summand) back⟩
  · obtain rfl := eq_number_of_mem_constantSummands member
    have nonzero : (sumOf summands).constantPart ≠ 0 := by
      intro none
      rw [linearForm, none, constantSummands_zero] at member
      cases member
    have total : (sumOf summands).constantPart = (summands.map constantPart).sum :=
      coordinate_sumOf canonical none
    obtain ⟨e, summand, constant⟩ : ∃ e ∈ summands, e.constantPart ≠ 0 := by
      by_contra none
      push Not at none
      refine nonzero (total.trans (List.sum_eq_zero fun v inside => ?_))
      obtain ⟨e, summand, rfl⟩ := List.mem_map.mp inside
      exact none e summand
    refine .inr ⟨e, summand, ?_⟩
    cases e with
    | number v =>
      have other : v ≠ 0 := constant
      refine ⟨(sumOf summands).constantPart / v, div_ne_zero nonzero other, ?_⟩
      rw [scale_number, div_mul_cancel₀ _ other, linearForm]
    | sum c terms => exact absurd rfl (others _ summand c terms)
    | _ => exact absurd rfl constant

/-- No summand of a sum is a multiple of another one. -/
theorem pairwise_summandsOf {constant : Rat} {terms : List Multiple}
    (canonical : (sum constant terms).Canonical) :
    (summandsOf (sum constant terms)).Pairwise fun s s' => ¬ s'.IsMultipleOf s := by
  have valid := canonical.valid_linearForm
  have term {t s : Expr} {q : Rat} (stored : (t, q) ∈ terms)
      (multiple : s.IsMultipleOf (t.scale q)) : ∃ r, s.termPart = [(t, r)] := by
    obtain ⟨p, nonzero, rfl⟩ := multiple
    have canonical_term := valid.canonical t q stored
    refine ⟨p * q, ?_⟩
    rw [scale_scale _ _ canonical_term]
    exact termPart_scale_of_isTerm canonical_term (valid.bare t q stored)
      (mul_ne_zero nonzero (valid.reduced.multiplicity t q stored))
  rw [summandsOf, operands_sum, List.pairwise_append, List.pairwise_map]
  refine ⟨valid.reduced.increasing.imp_of_mem ?_, ?_, ?_⟩
  · rintro ⟨t, q⟩ ⟨u, r⟩ stored stored' before multiple
    obtain ⟨_, part⟩ := term stored multiple
    rw [termPart_scale_of_isTerm (valid.canonical u r stored') (valid.bare u r stored')
      (valid.reduced.multiplicity u r stored')] at part
    obtain rfl : u = t := by simpa using congrArg (List.map Prod.fst) part
    exact compare_self_ne_lt u before
  · unfold constantSummands
    split
    · exact .nil
    · exact List.pairwise_singleton ..
  · intro s inside s' constant_member multiple
    obtain ⟨⟨t, q⟩, stored, rfl⟩ := List.mem_map.mp inside
    obtain ⟨_, part⟩ := term stored multiple
    rw [eq_number_of_mem_constantSummands constant_member] at part
    cases part

theorem ne_zero_of_mem_summandsOf {constant : Rat} {terms : List Multiple}
    (canonical : (sum constant terms).Canonical) {s : Expr}
    (member : s ∈ summandsOf (sum constant terms)) : s ≠ number 0 := by
  have valid := canonical.valid_linearForm
  rw [summandsOf, operands_sum] at member
  rintro rfl
  rcases List.mem_append.mp member with member | member
  · obtain ⟨⟨t, q⟩, stored, zero⟩ := List.mem_map.mp member
    have part := termPart_scale_of_isTerm (valid.canonical t q stored) (valid.bare t q stored)
      (valid.reduced.multiplicity t q stored)
    rw [zero] at part
    cases part
  · unfold constantSummands at member
    split at member
    · cases member
    · rename_i nonzero
      exact nonzero (number.inj (List.mem_singleton.mp member)).symm

end SymbolicAlgebra
