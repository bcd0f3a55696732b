import SymbolicAlgebra.Proofs.Closure
import SymbolicAlgebra.Proofs.Raises

namespace SymbolicAlgebra

open SymbolicAlgebra.Expr

namespace RaisingLaws

variable {S : Factor → Prop} (laws : RaisingLaws S)

include laws

theorem each_productOf {operands : List Expr} {r : Expr}
    (found : (productOf operands : Except Error Expr) = .ok r)
    (canonical : ∀ e ∈ operands, e.Canonical)
    (each : ∀ e ∈ operands, e.Each S ∧ ∀ c terms, e ≠ sum c terms) : r.Each S := by
  refine each_of_factorPart
    ((productOf_eq_ok_iff.mp found).everyFactor laws.factorLaws canonical ?_)
  intro factor member
  obtain ⟨e, inside, part⟩ := List.mem_flatMap.mp member
  exact laws.factorPart (each e inside).1 (each e inside).2 factor part

theorem each_powerOf {b x r : Expr} (found : (powerOf b x : Except Error Expr) = .ok r)
    (base : b.Canonical) (exponent : x.Canonical) (throughout : Throughout S (b, x)) : r.Each S :=
  each_of_factorPart
    ((powerOf_eq_ok_iff.mp found).everyFactor laws.factorLaws base exponent throughout)

/-- An integer power of a base that is raised through its factors. -/
theorem each_powerOf_inside {b r : Expr} {n : Int}
    (found : (powerOf b (number n) : Except Error Expr) = .ok r) (canonical : b.Canonical)
    (inside : ∀ c f, (c, f) ∈ b.factorPart → Throughout S (c, f.scale n)) : r.Each S :=
  each_of_factorPart
    ((powerOf_eq_ok_iff.mp found).everyFactor_inside laws.factorLaws canonical inside)

theorem each_distribute {a b r : Expr} (found : (distribute a b : Except Error Expr) = .ok r)
    (left : a.Canonical) (right : b.Canonical) (each_left : a.Each S) (each_right : b.Each S) :
    r.Each S := by
  obtain ⟨products, multiplied, found⟩ := bind_eq_ok_iff.mp found
  have each : ∀ e ∈ products, e.Canonical ∧ e.Each S := by
    intro e member
    obtain ⟨operands, pair, product⟩ := exists_of_mem_mapM multiplied member
    obtain ⟨l, first, pair⟩ := List.mem_flatMap.mp pair
    obtain ⟨r, second, rfl⟩ := List.mem_map.mp pair
    have canonical := canonical_pair (canonical_summandsOf left l first)
      (canonical_summandsOf right r second)
    refine ⟨canonical_productOf product canonical, laws.each_productOf product canonical ?_⟩
    simp only [List.forall_mem_cons, List.not_mem_nil, false_imp_iff, implies_true, and_true]
    exact ⟨laws.each_summandsOf left each_left l first,
      laws.each_summandsOf right each_right r second⟩
  cases found
  exact laws.each_sumOf (fun e member => (each e member).1) fun e member => (each e member).2

theorem each_distributeTimes {e acc r : Expr} {n : Nat}
    (found : (distributeTimes e n acc : Except Error Expr) = .ok r) (canonical : e.Canonical)
    (each : e.Each S) (start : acc.Canonical ∧ acc.Each S) : r.Each S := by
  induction n generalizing acc with
  | zero =>
    cases found
    exact start.2
  | succ n ih =>
    obtain ⟨next, distributed, found⟩ := bind_eq_ok_iff.mp found
    exact ih found ⟨canonical_distribute distributed start.1 canonical,
      laws.each_distribute distributed start.1 canonical start.2 each⟩

theorem each_expandPower {b r : Expr} {n : Nat}
    (found : (expandPower b n : Except Error Expr) = .ok r) (canonical : b.Canonical)
    (each : b.Each S) : r.Each S := by
  unfold expandPower at found
  split at found
  · cases found
  · obtain ⟨_, _, found⟩ := bind_eq_ok_iff.mp found
    exact laws.each_distributeTimes found canonical each ⟨canonical, each⟩

theorem each_expand_sum {constant : Rat} {terms : List Multiple} {r : Expr}
    (found : (expand (sum constant terms) : Except Error Expr) = .ok r)
    (canonical : (sum constant terms).Canonical)
    (inner : ∀ t q, (t, q) ∈ terms → ∀ u, (expand t : Except Error Expr) = .ok u → u.Each S) :
    r.Each S := by
  rw [expand_sum] at found
  obtain ⟨summands, expanded, rfl⟩ := map_eq_ok_iff.mp found
  have each : ∀ e ∈ summands ++ [number constant], e.Canonical ∧ e.Each S := by
    intro e member
    rcases List.mem_append.mp member with member | member
    · obtain ⟨⟨t, q⟩, stored, result⟩ := exists_of_mem_mapM expanded member
      obtain ⟨u, expansion, rfl⟩ := map_eq_ok_iff.mp result
      have canonical_term := canonical.valid_linearForm.canonical t q stored
      have canonical_inner := canonical_expand expansion canonical_term
      exact ⟨canonical_inner.scale q,
        laws.each_scale canonical_inner (inner t q stored u expansion) q⟩
    · cases List.mem_singleton.mp member
      exact ⟨canonical_number _, each_number _⟩
  exact laws.each_sumOf (fun e member => (each e member).1) fun e member => (each e member).2

theorem each_expand_product {q : Rat} {factors : List Factor} {r : Expr}
    (found : (expand (product q factors) : Except Error Expr) = .ok r)
    (kept : KeptFactors factors)
    (inner : ∀ part ∈ partsOf factors, ∀ u, (expand part : Except Error Expr) = .ok u →
      u.Each S) : r.Each S := by
  rw [expand_product] at found
  refine (foldlM_preserves (P := fun acc : Expr => acc.Canonical ∧ acc.Each S) found
    ⟨canonical_number q, each_number q⟩ ?_).2
  intro part stored acc next start step
  obtain ⟨u, expansion, distributed⟩ := bind_eq_ok_iff.mp step
  have canonical := canonical_expand expansion (kept.canonical_partsOf part stored)
  exact ⟨canonical_distribute distributed start.1 canonical,
    laws.each_distribute distributed start.1 canonical start.2 (inner part stored u expansion)⟩

end RaisingLaws

end SymbolicAlgebra
