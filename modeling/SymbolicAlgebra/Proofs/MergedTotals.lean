import SymbolicAlgebra.Proofs.Merging

namespace SymbolicAlgebra

open SymbolicAlgebra.Expr

/-- A requirement on bases with their exponents that is kept when exponents of a base are added. -/
def Mergeable (S : Factor → Prop) : Prop :=
  ∀ ⦃b e f⦄, e.Canonical → f.Canonical → S (b, e) → S (b, f) → S (b, sumOf [e, f])

section Requirement

variable {S : Factor → Prop} (merge : Mergeable S)

include merge

theorem Mergeable.insertFactor {b e : Expr} {factors : List Factor} (exponent : e.Canonical)
    (exponents : ∀ c f, (c, f) ∈ factors → f.Canonical) (factor : S (b, e))
    (every : ∀ factor ∈ factors, S factor) : ∀ factor ∈ insertFactor (b, e) factors, S factor := by
  induction factors with
  | nil => exact List.forall_mem_singleton.mpr factor
  | cons head rest ih =>
    obtain ⟨c, f⟩ := head
    obtain ⟨first, later⟩ := List.forall_mem_cons.mp every
    rw [SymbolicAlgebra.insertFactor]
    split
    · exact List.forall_mem_cons.mpr ⟨factor, every⟩
    · rename_i same
      obtain rfl : b = c := compare_eq_iff.mp same
      have total := merge exponent (exponents b f (List.mem_cons_self ..)) factor first
      exact List.forall_mem_cons.mpr ⟨total, later⟩
    · have tail := ih (fun d g member => exponents d g (List.mem_cons_of_mem _ member)) later
      exact List.forall_mem_cons.mpr ⟨first, tail⟩

theorem Mergeable.foldr {factors : List Factor}
    (canonical : ∀ b e, (b, e) ∈ factors → b.Canonical ∧ e.Canonical)
    (every : ∀ factor ∈ factors, S factor) :
    ∀ factor ∈ factors.foldr SymbolicAlgebra.insertFactor [], S factor := by
  induction factors with
  | nil => exact every
  | cons head rest ih =>
    obtain ⟨b, e⟩ := head
    obtain ⟨first, later⟩ := List.forall_mem_cons.mp every
    have canonical_rest := fun c f member => canonical c f (List.mem_cons_of_mem _ member)
    exact merge.insertFactor (canonical b e (List.mem_cons_self ..)).2
      (collected_foldr canonical_rest).exponents_canonical first (ih canonical_rest later)

theorem Mergeable.collectFactors {operands : List Expr} (canonical : ∀ e ∈ operands, e.Canonical)
    (every : ∀ factor ∈ operands.flatMap factorPart, S factor) :
    ∀ factor ∈ collectFactors operands, S factor :=
  merge.foldr (canonical_factorParts canonical) every

theorem Mergeable.mergedFactors {operands : List Expr} (canonical : ∀ e ∈ operands, e.Canonical)
    (every : ∀ factor ∈ operands.flatMap factorPart, S factor) :
    ∀ factor ∈ mergedFactors operands, S factor := fun factor member =>
  merge.collectFactors canonical every factor (mem_mergedFactors_iff.mp member).1

variable {M : Type*} [CommMonoid M] {φ : Factor → M}
  (add : ∀ ⦃b e f⦄, S (b, e) → S (b, f) → φ (b, sumOf [e, f]) = φ (b, e) * φ (b, f))

include add

omit merge in
/-- A product over factors does not notice that exponents of equal bases are added, if the factors
multiply as the exponents are added. -/
theorem prod_insertFactor {b e : Expr} {factors : List Factor}
    (factor : S (b, e)) (every : ∀ factor ∈ factors, S factor) :
    ((insertFactor (b, e) factors).map φ).prod =
      φ (b, e) * (factors.map φ).prod := by
  induction factors with
  | nil => rfl
  | cons head rest ih =>
    obtain ⟨c, f⟩ := head
    obtain ⟨first, later⟩ := List.forall_mem_cons.mp every
    rw [insertFactor]
    split
    · rw [List.map_cons, List.prod_cons]
    · rename_i same
      obtain rfl : b = c := compare_eq_iff.mp same
      rw [List.map_cons, List.prod_cons, add factor first, List.map_cons, List.prod_cons, mul_assoc]
    · rw [List.map_cons, List.prod_cons, ih later, List.map_cons, List.prod_cons, mul_left_comm]

theorem Mergeable.prod_foldr {factors : List Factor}
    (canonical : ∀ b e, (b, e) ∈ factors → b.Canonical ∧ e.Canonical)
    (every : ∀ factor ∈ factors, S factor) :
    ((factors.foldr SymbolicAlgebra.insertFactor []).map φ).prod = (factors.map φ).prod := by
  induction factors with
  | nil => rfl
  | cons head rest ih =>
    obtain ⟨b, e⟩ := head
    obtain ⟨first, later⟩ := List.forall_mem_cons.mp every
    have canonical_rest := fun c f member => canonical c f (List.mem_cons_of_mem _ member)
    rw [List.foldr_cons, prod_insertFactor add first (merge.foldr canonical_rest later),
      ih canonical_rest later, List.map_cons, List.prod_cons]

/-- Exponents that cancelled leave out a factor of one. -/
theorem Mergeable.prod_mergedFactors (zero : ∀ b, φ (b, number 0) = 1) {operands : List Expr}
    (canonical : ∀ e ∈ operands, e.Canonical)
    (every : ∀ factor ∈ operands.flatMap factorPart, S factor) :
    ((SymbolicAlgebra.mergedFactors operands).map φ).prod =
      ((operands.flatMap factorPart).map φ).prod := by
  have nonzero (factors : List Factor) :
      ((factors.filter fun factor => !factor.2.isZero).map φ).prod = (factors.map φ).prod := by
    induction factors with
    | nil => rfl
    | cons head rest ih =>
      obtain ⟨b, e⟩ := head
      by_cases vanishes : e.isZero
      · obtain rfl := isNumber_iff.mp vanishes
        rw [List.filter_cons_of_neg (by simpa using vanishes), ih, List.map_cons, List.prod_cons,
          zero, one_mul]
      · rw [List.filter_cons_of_pos (by simpa using vanishes), List.map_cons, List.prod_cons, ih,
          List.map_cons, List.prod_cons]
  rw [SymbolicAlgebra.mergedFactors, nonzero]
  exact merge.prod_foldr add (canonical_factorParts canonical) every

end Requirement

end SymbolicAlgebra
