import SymbolicAlgebra.Proofs.FactorRuns

namespace SymbolicAlgebra

open SymbolicAlgebra.Expr

/-- All bases of the factors meet a requirement. -/
def EveryBase (S : Expr → Prop) (factors : List Factor) : Prop :=
  ∀ b e, (b, e) ∈ factors → S b

/-- A requirement on bases that goes over to the bases they are raised through, and from a sum to
its multiples. -/
structure Inherited (S : Expr → Prop) : Prop where
  inner : ∀ b, S b → EveryBase S b.factorPart
  multiple : ∀ c terms q, q ≠ 0 → S (sum c terms) → S ((sum c terms).scale q)

namespace EveryBase

variable {S : Expr → Prop} {factors others : List Factor}

theorem iff_forall : EveryBase S factors ↔ ∀ factor ∈ factors, S factor.1 := by
  simp only [Prod.forall, EveryBase]

theorem nil : EveryBase S [] := by
  intro b e member
  cases member

theorem singleton {b : Expr} (base : S b) (e : Expr) : EveryBase S [(b, e)] :=
  iff_forall.mpr (List.forall_mem_singleton.mpr base)

theorem subset (every : EveryBase S others) (within : factors ⊆ others) : EveryBase S factors :=
  fun b e member => every b e (within member)

theorem head {factor : Factor} (every : EveryBase S (factor :: factors)) : S factor.1 :=
  every factor.1 factor.2 (List.mem_cons_self ..)

theorem tail {factor : Factor} (every : EveryBase S (factor :: factors)) : EveryBase S factors :=
  every.subset (List.subset_cons_self _ _)

theorem append (every : EveryBase S factors) (every_other : EveryBase S others) :
    EveryBase S (factors ++ others) := by
  intro b e member
  rcases List.mem_append.mp member with member | member
  · exact every b e member
  · exact every_other b e member

theorem mergeable (S : Expr → Prop) : Mergeable fun factor => S factor.1 :=
  fun _ _ _ _ _ base _ => base

theorem collectFactors {operands : List Expr} (canonical : ∀ e ∈ operands, e.Canonical)
    (every : EveryBase S (operands.flatMap factorPart)) : EveryBase S (collectFactors operands) :=
  iff_forall.mpr ((mergeable S).collectFactors canonical (iff_forall.mp every))

/-- The operands of a restart have the bases of what was kept and what was rewritten. -/
theorem again {settled : Settled} (rewritten : EveryBase S (settled.rewritten.flatMap factorPart))
    (kept : EveryBase S settled.kept)
    (each : ∀ b e, (b, e) ∈ settled.kept → CanonicalFactor b e) (q : Rat) :
    EveryBase S
      ((settled.rewritten ++ partsOf settled.kept ++ [number q]).flatMap factorPart) :=
  iff_forall.mpr (Settled.forall_again (iff_forall.mp rewritten) (iff_forall.mp kept) each q)

end EveryBase

section Runs

variable {S : Expr → Prop} (inherited : Inherited S)

include inherited

/-- Whatever their exponents are, bases are raised through bases that meet the requirement too. -/
theorem Inherited.factorLaws : FactorLaws fun factor => S factor.1 where
  merge := EveryBase.mergeable S
  inside _ base _ _ member := inherited.inner _ base _ _ member
  multiple := inherited.multiple _ _ _

/-- A requirement that the bases of all operands meet is met by the bases of their product. -/
theorem ProductRun.everyBase {operands : List Expr} {r : Expr} (run : ProductRun operands r)
    (canonical : ∀ e ∈ operands, e.Canonical) (every : EveryBase S (operands.flatMap factorPart)) :
    EveryBase S r.factorPart :=
  EveryBase.iff_forall.mpr
    (run.everyFactor inherited.factorLaws canonical (EveryBase.iff_forall.mp every))

/-- The bases of a power are its base or what that is raised through. -/
theorem PowerRun.everyBase {b e r : Expr} (run : PowerRun b e r) (base_canonical : b.Canonical)
    (exponent_canonical : e.Canonical) (base : S b) : EveryBase S r.factorPart :=
  EveryBase.iff_forall.mpr
    (run.everyFactor inherited.factorLaws base_canonical exponent_canonical base)

theorem PowersRun.everyBase {factors : List Factor} {n : Int} {rs : List Expr}
    (run : PowersRun factors n rs) (bases : ∀ b e, (b, e) ∈ factors → b.Canonical)
    (exponents : ∀ b e, (b, e) ∈ factors → e.Canonical) (every : EveryBase S factors) :
    EveryBase S (rs.flatMap factorPart) :=
  EveryBase.iff_forall.mpr (run.everyFactor inherited.factorLaws bases exponents every)

end Runs

end SymbolicAlgebra
