import SymbolicAlgebra.Proofs.MergedTotals

namespace SymbolicAlgebra

open SymbolicAlgebra.Expr

/-- A product over factors is taken base by base. -/
theorem prod_map_eq_prod_bases {M : Type*} [CommMonoid M] (φ : Factor → M) {factors : List Factor}
    {bases : Finset Expr} (covered : ∀ b e, (b, e) ∈ factors → b ∈ bases) :
    (factors.map φ).prod = ∏ b ∈ bases, ((exponentsOf b factors).map fun e => φ (b, e)).prod := by
  induction factors with
  | nil => exact (Finset.prod_eq_one fun b _ => List.prod_nil).symm
  | cons head rest ih =>
    obtain ⟨c, f⟩ := head
    have tail := ih fun b e stored => covered b e (List.mem_cons_of_mem _ stored)
    have split (b : Expr) : ((exponentsOf b ((c, f) :: rest)).map fun e => φ (b, e)).prod =
        (if c = b then φ (c, f) else 1) * ((exponentsOf b rest).map fun e => φ (b, e)).prod := by
      by_cases same : c = b
      · subst same
        rw [exponentsOf_cons_self, List.map_cons, List.prod_cons, if_pos rfl]
      · rw [exponentsOf_cons_of_ne same, if_neg same, one_mul]
    simp only [split, Finset.prod_mul_distrib]
    rw [Finset.prod_ite_eq, if_pos (covered c f (List.mem_cons_self ..)), ← tail, List.map_cons,
      List.prod_cons]

theorem sumOf_nil : sumOf [] = number 0 := by
  cbv

theorem exists_of_mem_mergedFactors {operands : List Expr} (canonical : ∀ e ∈ operands, e.Canonical)
    {b e : Expr} (stored : (b, e) ∈ mergedFactors operands) :
    ∃ f, (b, f) ∈ operands.flatMap factorPart := by
  obtain ⟨rfl, nonzero⟩ := (mem_mergedFactors_iff_total canonical).mp stored
  by_contra absent
  rw [exponentsOf_eq_nil fun f carried => absent ⟨f, carried⟩] at nonzero
  exact nonzero sumOf_nil

end SymbolicAlgebra
