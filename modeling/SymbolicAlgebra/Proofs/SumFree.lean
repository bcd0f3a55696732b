import SymbolicAlgebra.Proofs.Distribution
import SymbolicAlgebra.Proofs.ValuePreservation

namespace SymbolicAlgebra

open SymbolicAlgebra.Expr

/-- No sum is raised when the expression is raised to a power. -/
structure Expr.SumFree (e : Expr) : Prop where
  not_sum : ∀ c terms, e ≠ sum c terms
  inner : ∀ c terms, ¬ e.RaisesBase (sum c terms)

namespace Expr

theorem sumFree_number (q : Rat) : (number q).SumFree :=
  ⟨by simp, fun c terms raises => by cases raises⟩

theorem sumFree_of_isIndeterminate {e : Expr} (form : e.IsIndeterminate) : e.SumFree := by
  refine ⟨fun c terms same => ?_, fun c terms raises => ?_⟩
  · subst same
    exact form
  · cases raises <;> exact form

theorem SumFree.factorPart {e : Expr} (free : e.SumFree) : EveryBase SumFree e.factorPart := by
  intro b x member
  rcases mem_factorPart_cases member with ⟨q, factors, rfl, stored⟩ | rfl | ⟨rfl, rfl⟩
  · refine ⟨?_, fun c terms raises => free.inner c terms (.distributed stored raises)⟩
    rintro c terms rfl
    exact free.inner c terms (.factor stored)
  · refine ⟨?_, fun c terms raises => free.inner c terms (.nested raises)⟩
    rintro c terms rfl
    exact free.inner c terms .power
  · exact free

theorem sumFree_of_factorPart {e : Expr} (every : EveryBase SumFree e.factorPart) :
    e.SumFree := by
  cases e with
  | number q => exact sumFree_number q
  | product q factors =>
    refine ⟨by simp, fun c terms raises => ?_⟩
    cases raises with
    | factor stored => exact (every _ _ stored).not_sum c terms rfl
    | distributed stored inner => exact (every _ _ stored).inner c terms inner
  | power b x =>
    refine ⟨by simp, fun c terms raises => ?_⟩
    cases raises with
    | power => exact every.head.not_sum c terms rfl
    | nested inner => exact every.head.inner c terms inner
  | _ => exact every.head

theorem inherited_sumFree : Inherited SumFree where
  inner _ free := free.factorPart
  multiple c terms _ _ free := absurd rfl (free.not_sum c terms)

end Expr

theorem sumFree_productOf {operands : List Expr} {r : Expr}
    (found : (productOf operands : Except Error Expr) = .ok r)
    (canonical : ∀ e ∈ operands, e.Canonical) (free : ∀ e ∈ operands, e.SumFree) : r.SumFree := by
  refine sumFree_of_factorPart
    ((productOf_eq_ok_iff.mp found).everyBase inherited_sumFree canonical ?_)
  intro b x member
  obtain ⟨e, inside, part⟩ := List.mem_flatMap.mp member
  exact (free e inside).factorPart b x part

theorem sumFree_powerOf {b x r : Expr} (found : (powerOf b x : Except Error Expr) = .ok r)
    (base : b.Canonical) (exponent : x.Canonical) (free : b.SumFree) : r.SumFree :=
  sumFree_of_factorPart
    ((powerOf_eq_ok_iff.mp found).everyBase inherited_sumFree base exponent free)

/-- Where there is nothing to distribute over, distribution is the product. -/
theorem distribute_eq_productOf {a b : Expr} (left : a.Canonical) (right : b.Canonical)
    (left_whole : ∀ c terms, a ≠ sum c terms) (right_whole : ∀ c terms, b ≠ sum c terms) :
    (distribute a b : Except Error Expr) = productOf [a, b] := by
  unfold distribute
  rw [summandsOf_eq_singleton left_whole, summandsOf_eq_singleton right_whole]
  change ([[a, b]].mapM productOf >>= summed) = (productOf [a, b] : Except Error Expr)
  rw [List.mapM_cons, List.mapM_nil]
  cases found : (productOf [a, b] : Except Error Expr) with
  | error cause => rfl
  | ok p =>
    have canonical := canonical_productOf found (canonical_pair left right)
    exact congrArg Except.ok (sumOf_singleton canonical)

theorem sumFree_expand_power {b x r : Expr} (base : b.Canonical) (exponent : x.Canonical)
    (inner : ∀ b', (expand b : Except Error Expr) = .ok b' → b'.SumFree)
    (found : (expand (power b x) : Except Error Expr) = .ok r) : r.SumFree := by
  obtain ⟨b', x', expanded_base, expanded_exponent, outcome⟩ := expand_power_cases found
  have free := inner b' expanded_base
  rcases outcome with ⟨c, terms, n, same, _⟩ | ⟨_, found⟩
  · exact absurd same (free.not_sum c terms)
  · exact sumFree_powerOf found (canonical_expand expanded_base base)
      (canonical_expand expanded_exponent exponent) free

/-- A product is expanded by multiplying, if no part of it comes out as a sum. -/
theorem sumFree_expand_product {q : Rat} {factors : List Factor} {r : Expr}
    (kept : KeptFactors factors)
    (parts : ∀ part ∈ partsOf factors, ∀ u, (expand part : Except Error Expr) = .ok u → u.SumFree)
    (found : (expand (product q factors) : Except Error Expr) = .ok r) : r.SumFree := by
  rw [expand_product] at found
  refine (foldlM_preserves (P := fun acc : Expr => acc.Canonical ∧ acc.SumFree) found
    ⟨canonical_number q, sumFree_number q⟩ ?_).2
  intro part member acc next start step
  obtain ⟨u, expansion, distributed⟩ := bind_eq_ok_iff.mp step
  have canonical_part := canonical_expand expansion (kept.canonical_partsOf part member)
  have free_part := parts part member u expansion
  rw [distribute_eq_productOf start.1 canonical_part start.2.not_sum free_part.not_sum]
    at distributed
  have pair := canonical_pair start.1 canonical_part
  refine ⟨canonical_productOf distributed pair, sumFree_productOf distributed pair ?_⟩
  simp [start.2, free_part]

/-- What no sum is raised in stays so when it is expanded. -/
theorem sumFree_expand {e r : Expr} (canonical : e.Canonical) (free : e.SumFree)
    (found : (expand e : Except Error Expr) = .ok r) : r.SumFree := by
  induction e using Expr.induction generalizing r with
  | sum c terms => exact absurd rfl (free.not_sum c terms)
  | product q factors ih =>
    obtain ⟨_, _, kept⟩ := canonical_product_iff.mp canonical
    refine sumFree_expand_product kept (fun part member u expansion => ?_) found
    obtain ⟨⟨b, x⟩, stored, rfl⟩ := List.mem_map.mp member
    have base := kept.bases_canonical b x stored
    have inner := fun b' => (ih b x stored).1 (r := b') base (free.factorPart b x stored)
    unfold ofFactor at expansion
    split at expansion
    · exact inner u expansion
    · exact sumFree_expand_power base (kept.exponents_canonical b x stored) inner expansion
  | power b x ih _ =>
    cases canonical with
    | power form base exponent =>
      exact sumFree_expand_power base exponent (fun b' => ih base (free.factorPart.head)) found
  | _ =>
    rw [expand_eq_self (by simp) (by simp) (by simp)] at found
    cases found
    exact free

end SymbolicAlgebra
