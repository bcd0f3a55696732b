import SymbolicAlgebra.Expansion
import SymbolicAlgebra.Proofs.VectorSpace

namespace SymbolicAlgebra

open SymbolicAlgebra.Expr

/-- The constant of a sum as one of its operands; zero is none. -/
def constantSummands (q : Rat) : List Expr :=
  if q = 0 then [] else [number q]

/-- The operands of a combination: its scaled terms and then its constant. -/
def LinearForm.summands (form : LinearForm) : List Expr :=
  form.terms.map (fun (t, q) => t.scale q) ++ constantSummands form.constant

/-- A sum of products with every pair of operands is the product of the sums. -/
theorem sum_pairs {R : Type*} [CommRing R] (f : Expr → R) (as bs : List Expr) :
    ((as.flatMap fun a => bs.map fun b => [a, b]).map fun pair => (pair.map f).prod).sum =
      (as.map f).sum * (bs.map f).sum := by
  induction as with
  | nil => exact (zero_mul _).symm
  | cons a rest ih =>
    have first : (bs.map fun b => [a, b]).map (fun pair => (pair.map f).prod) =
        bs.map fun b => f a * f b := by
      rw [List.map_map]
      exact List.map_congr_left fun b _ => List.prod_pair
    rw [List.flatMap_cons, List.map_append, List.sum_append, ih, first, List.sum_map_mul_left,
      List.map_cons, List.sum_cons, add_mul]

theorem operands_sum (constant : Rat) (terms : List Multiple) : (sum constant terms).operands =
    (terms.map fun multiple => multiple.1.scale multiple.2) ++ constantSummands constant := rfl

theorem eq_number_of_mem_constantSummands {q : Rat} {e : Expr} (member : e ∈ constantSummands q) :
    e = number q := by
  unfold constantSummands at member
  split at member
  · cases member
  · exact List.mem_singleton.mp member

theorem sum_constantSummands (q : Rat) : ((constantSummands q).map constantPart).sum = q := by
  unfold constantSummands
  split
  · rename_i zero
    exact zero.symm
  · exact add_zero q

theorem termParts_constantSummands (q : Rat) : (constantSummands q).flatMap termPart = [] := by
  unfold constantSummands
  split <;> rfl

theorem constantSummands_zero : constantSummands 0 = [] :=
  if_pos rfl

theorem exists_constantSummands (q : Rat) :
    ∃ vs : List Rat, constantSummands q = vs.map number ∧ vs.sum = q := by
  unfold constantSummands
  split
  · rename_i zero
    exact ⟨[], rfl, zero.symm⟩
  · exact ⟨[q], rfl, List.sum_singleton⟩

theorem summandsOf_eq_singleton {e : Expr} (other : ∀ c terms, e ≠ sum c terms) :
    summandsOf e = [e] := by
  cases e with
  | sum c terms => exact absurd rfl (other c terms)
  | _ => rfl

theorem Expr.KeptFactors.withCoefficient_ne_sum {factors : List Factor} (kept : KeptFactors factors)
    {q : Rat} (nonzero : q ≠ 0) (c : Rat) (terms : List Multiple) :
    withCoefficient q factors ≠ sum c terms := by
  intro same
  rcases kept.withCoefficient_cases nonzero with ⟨b, e, _, rfl, _⟩ | ⟨_, whole⟩
  · have term := kept.isTerm
    rw [same] at term
    exact term
  · rw [whole] at same
    cases same

/-- What an expression adds up can be read off the form in which it enters a sum. -/
theorem summandsOf_eq_summands {e : Expr} (canonical : e.Canonical) (nonzero : e ≠ number 0) :
    summandsOf e = e.linearForm.summands := by
  cases canonical.shape with
  | number q =>
    have other : q ≠ 0 := fun zero => nonzero (congrArg number zero)
    simp [summandsOf, LinearForm.summands, constantSummands, linearForm, constantPart, termPart,
      other]
  | sum form each => rfl
  | multiple coefficient kept =>
    rw [summandsOf_eq_singleton (kept.withCoefficient_ne_sum coefficient),
      linearForm_withCoefficient kept coefficient]
    simp [LinearForm.summands, constantSummands, kept.scale_withCoefficient]

theorem mem_summandsOf_cases {e s : Expr} (member : s ∈ summandsOf e) :
    (∃ c terms, e = sum c terms ∧ s ∈ (sum c terms).operands) ∨
      (∀ c terms, e ≠ sum c terms) ∧ s = e := by
  cases e with
  | sum c terms => exact .inl ⟨c, terms, rfl, member⟩
  | _ => exact .inr ⟨by simp, List.mem_singleton.mp member⟩

/-- No sum is the summand of another. -/
theorem ne_sum_of_mem_summandsOf {e s : Expr} (canonical : e.Canonical)
    (member : s ∈ summandsOf e) : ∀ c terms, s ≠ sum c terms := by
  rcases mem_summandsOf_cases member with ⟨c, terms, rfl, inside⟩ | ⟨other, rfl⟩
  · rw [operands_sum] at inside
    rcases List.mem_append.mp inside with inside | inside
    · obtain ⟨⟨t, q⟩, stored, rfl⟩ := List.mem_map.mp inside
      cases canonical with
      | sum form each =>
        have term := form.bare t q stored
        have kept := (each t q stored).keptFactors term
        rw [scale_eq_withCoefficient (each t q stored) term]
        exact kept.withCoefficient_ne_sum (form.multiplicity t q stored)
    · rw [eq_number_of_mem_constantSummands inside]
      simp
  · exact other

theorem constantPart_scale_of_isTerm {t : Expr} (canonical : t.Canonical) (term : t.IsTerm)
    (q : Rat) : (t.scale q).constantPart = 0 := by
  rw [scale_eq_withCoefficient canonical term]
  exact (canonical.keptFactors term).constantPart_withCoefficient q

theorem termPart_scale_of_isTerm {t : Expr} (canonical : t.Canonical) (term : t.IsTerm) {q : Rat}
    (nonzero : q ≠ 0) : (t.scale q).termPart = [(t, q)] := by
  rw [scale_eq_withCoefficient canonical term,
    (canonical.keptFactors term).termPart_withCoefficient nonzero,
    canonical.withCoefficient_factorPart term]

/-- The operands of a combination make it up. -/
theorem LinearForm.Valid.ofSummands_summands {form : LinearForm} (valid : form.Valid) :
    ofSummands form.summands = form := by
  have scaled (multiple : Multiple) (stored : multiple ∈ form.terms) :
      (multiple.1.scale multiple.2).constantPart = 0 ∧
        (multiple.1.scale multiple.2).termPart = [multiple] := by
    obtain ⟨t, q⟩ := multiple
    have canonical := valid.canonical t q stored
    have term := valid.bare t q stored
    exact ⟨constantPart_scale_of_isTerm canonical term q,
      termPart_scale_of_isTerm canonical term (valid.reduced.multiplicity t q stored)⟩
  have canonical : ∀ e ∈ form.summands, e.Canonical := by
    intro e member
    rcases List.mem_append.mp member with member | member
    · obtain ⟨⟨t, q⟩, stored, rfl⟩ := List.mem_map.mp member
      exact (valid.canonical t q stored).scale q
    · rw [eq_number_of_mem_constantSummands member]
      exact canonical_number _
  have constant : (form.summands.map constantPart).sum = form.constant := by
    have zeros : ((form.terms.map fun (t, q) => t.scale q).map constantPart).sum = 0 := by
      refine List.sum_eq_zero fun c member => ?_
      obtain ⟨e, inside, rfl⟩ := List.mem_map.mp member
      obtain ⟨multiple, stored, rfl⟩ := List.mem_map.mp inside
      exact (scaled multiple stored).1
    rw [LinearForm.summands, List.map_append, List.sum_append, zeros, zero_add,
      sum_constantSummands]
  have terms : form.summands.flatMap termPart = form.terms := by
    rw [LinearForm.summands, List.flatMap_append, termParts_constantSummands, List.append_nil,
      List.flatMap_map]
    refine Eq.trans ?_ (List.flatMap_singleton' form.terms)
    exact List.flatMap_congr fun multiple stored => (scaled multiple stored).2
  refine (valid_ofSummands canonical).ext valid ?_ fun t => ?_
  · exact (collectConstant_eq _).trans constant
  · exact (combination_collectTerms _ _).trans (congrArg (multiplicityOf t) terms)

theorem sumOf_operands {constant : Rat} {terms : List Multiple}
    (canonical : (sum constant terms).Canonical) :
    sumOf (sum constant terms).operands = sum constant terms :=
  (congrArg LinearForm.toExpr canonical.valid_linearForm.ofSummands_summands).trans
    canonical.toExpr_linearForm

theorem sumOf_summandsOf {e : Expr} (canonical : e.Canonical) : sumOf (summandsOf e) = e := by
  by_cases shape : ∃ c terms, e = sum c terms
  · obtain ⟨c, terms, rfl⟩ := shape
    exact sumOf_operands canonical
  · rw [summandsOf_eq_singleton fun c terms same => shape ⟨c, terms, same⟩,
      sumOf_singleton canonical]

section Distinct

theorem mergeNeighbours_of_nodup {multiples : List Multiple}
    (distinct : (multiples.map Prod.fst).Nodup) : mergeNeighbours multiples = multiples := by
  induction multiples with
  | nil => rfl
  | cons head rest ih =>
    obtain ⟨t, q⟩ := head
    obtain ⟨absent, later⟩ := List.nodup_cons.mp distinct
    rw [mergeNeighbours, ih later]
    cases rest with
    | nil => rfl
    | cons next others =>
      obtain ⟨u, r⟩ := next
      have other : t ≠ u := fun same => absent (same ▸ List.mem_cons_self ..)
      exact if_neg other

/-- Distinct terms are only sorted. -/
theorem collectTerms_perm {multiples : List Multiple} (distinct : (multiples.map Prod.fst).Nodup)
    (nonzero : ∀ t q, (t, q) ∈ multiples → q ≠ 0) : (collectTerms multiples).Perm multiples := by
  have sorted := List.mergeSort_perm multiples fun x y => (x.1.compare y.1).isLE
  have distinct_sorted := (sorted.map Prod.fst).nodup_iff.mpr distinct
  rw [collectTerms, mergeNeighbours_of_nodup distinct_sorted, List.filter_eq_self.mpr]
  · exact sorted
  · rintro ⟨t, q⟩ member
    exact decide_eq_true (nonzero t q (sorted.mem_iff.mp member))

/-- Two expressions that share no term, and of which one has no constant. -/
structure Expr.Apart (a b : Expr) : Prop where
  terms : ∀ t q r, (t, q) ∈ a.termPart → (t, r) ∉ b.termPart
  constants : a.constantPart = 0 ∨ b.constantPart = 0

theorem linearForm_sumOf_pair {a b : Expr} (left : a.Canonical) (right : b.Canonical) :
    (sumOf [a, b]).linearForm =
      ⟨a.constantPart + b.constantPart, collectTerms (a.termPart ++ b.termPart)⟩ := by
  have form := (valid_ofSummands (canonical_pair left right)).linearForm_toExpr
  refine form.trans ?_
  simp [LinearForm.ofSummands, collectConstant]

theorem eq_zero_of_linearForm {e : Expr} (canonical : e.Canonical)
    (constant : e.constantPart = 0) (terms : e.termPart = []) : e = number 0 := by
  have form : e.linearForm = ⟨0, []⟩ := by rw [linearForm, constant, terms]
  rw [← canonical.toExpr_linearForm, form]
  rfl

namespace Expr.Apart

variable {a b : Expr} (apart : a.Apart b) (left : a.Canonical) (right : b.Canonical)

include apart left right

theorem collectTerms_perm :
    (collectTerms (a.termPart ++ b.termPart)).Perm (a.termPart ++ b.termPart) := by
  have reduced_left := left.valid_linearForm.reduced
  have reduced_right := right.valid_linearForm.reduced
  refine SymbolicAlgebra.collectTerms_perm ?_ ?_
  · rw [List.map_append, List.nodup_append]
    refine ⟨reduced_left.increasing.nodup_fst, reduced_right.increasing.nodup_fst, ?_⟩
    intro t inside u other same
    subst same
    obtain ⟨⟨_, q⟩, first, rfl⟩ := List.mem_map.mp inside
    obtain ⟨⟨_, r⟩, second, rfl⟩ := List.mem_map.mp other
    exact apart.terms _ q r first second
  · intro t q member
    rcases List.mem_append.mp member with member | member
    · exact reduced_left.multiplicity t q member
    · exact reduced_right.multiplicity t q member

theorem sumOf_ne_zero (nonzero : a ≠ number 0) : sumOf [a, b] ≠ number 0 := by
  intro zero
  have form := linearForm_sumOf_pair left right
  rw [zero] at form
  obtain ⟨constant, terms⟩ := LinearForm.mk.inj form
  have none := List.append_eq_nil_iff.mp (terms ▸ apart.collectTerms_perm left right).nil_eq.symm
  refine nonzero (eq_zero_of_linearForm left ?_ none.1)
  have total : a.constantPart + b.constantPart = 0 := constant.symm
  rcases apart.constants with zero | zero
  · exact zero
  · rwa [zero, add_zero] at total

/-- Nothing merges in the sum of expressions that are apart. -/
theorem summandsOf_perm (left_nonzero : a ≠ number 0) (right_nonzero : b ≠ number 0) :
    (summandsOf (sumOf [a, b])).Perm (summandsOf a ++ summandsOf b) := by
  rw [summandsOf_eq_summands (canonical_sumOf_pair left right)
      (apart.sumOf_ne_zero left right left_nonzero), linearForm_sumOf_pair left right,
    summandsOf_eq_summands left left_nonzero, summandsOf_eq_summands right right_nonzero]
  unfold LinearForm.summands
  dsimp only [linearForm]
  refine ((apart.collectTerms_perm left right).map _).append_right _ |>.trans ?_
  rw [List.map_append]
  rcases apart.constants with zero | zero
  · rw [zero, zero_add, constantSummands_zero, List.append_nil, List.append_assoc]
  · rw [zero, add_zero, constantSummands_zero, List.append_nil, List.append_assoc,
      List.append_assoc]
    exact List.perm_append_comm.append_left _

end Expr.Apart

end Distinct

end SymbolicAlgebra
