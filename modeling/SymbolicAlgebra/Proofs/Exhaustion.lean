import SymbolicAlgebra.Proofs.SumFree
import SymbolicAlgebra.Proofs.SymbolSubstitution

namespace SymbolicAlgebra

open SymbolicAlgebra.Expr

/-- No sum is left that is raised to a positive integer, be it in a power or as a factor. -/
def Expr.Exhausted (e : Expr) : Prop :=
  ∀ c terms (n : Int), e.Raises (sum c terms) (number n) → ¬ 0 < n

/-- The requirement on factors that makes up exhaustion. -/
def Spent (factor : Factor) : Prop :=
  ∀ c terms (n : Int), factor.1 = sum c terms → factor.2 = number n → ¬ 0 < n

theorem exhausted_iff_each {e : Expr} : e.Exhausted ↔ e.Each Spent := by
  constructor
  · rintro exhausted b x raises c terms n rfl rfl
    exact exhausted c terms n raises
  · exact fun each c terms n raises => each _ _ raises c terms n rfl rfl

section Products

/-- Kept factors of which none is a bare sum, or no factors at all. -/
structure WholeFactors (factors : List Factor) : Prop where
  collected : Collected factors
  factor : ∀ b e, (b, e) ∈ factors → CanonicalFactor b e
  not_sum : ∀ c terms, (sum c terms, number 1) ∉ factors

variable {factors : List Factor}

theorem WholeFactors.sublist {others : List Factor} (whole : WholeFactors others)
    (sublist : factors.Sublist others) : WholeFactors factors where
  collected := whole.collected.sublist sublist
  factor b e stored := whole.factor b e (sublist.subset stored)
  not_sum c terms stored := whole.not_sum c terms (sublist.subset stored)

theorem WholeFactors.keptFactors (whole : WholeFactors factors) (nonempty : factors ≠ []) :
    KeptFactors factors where
  nonempty := nonempty
  increasing := whole.collected.increasing
  factor := whole.factor
  not_lone_sum c terms same := whole.not_sum c terms (same ▸ List.mem_singleton_self _)
  bases_canonical := whole.collected.bases_canonical
  exponents_canonical := whole.collected.exponents_canonical

/-- Under a coefficient such factors are read off again. -/
theorem WholeFactors.withCoefficient (whole : WholeFactors factors) {q : Rat} (nonzero : q ≠ 0) :
    (withCoefficient q factors).Canonical ∧ (∀ c terms, withCoefficient q factors ≠ sum c terms) ∧
      (withCoefficient q factors).coefficientPart = q ∧
      (withCoefficient q factors).factorPart = factors := by
  by_cases empty : factors = []
  · have constant : Expr.withCoefficient q [] = number q := if_neg nonzero
    rw [empty, constant]
    exact ⟨canonical_number q, by simp, rfl, rfl⟩
  · have kept := whole.keptFactors empty
    exact ⟨kept.canonical_withCoefficient q, kept.withCoefficient_ne_sum nonzero,
      kept.coefficientPart_withCoefficient nonzero, kept.factorPart_withCoefficient nonzero⟩

/-- A factor is put behind the others by distribution. -/
theorem WholeFactors.distribute {before : List Factor} {factor : Factor} {q : Rat}
    (whole : WholeFactors (before ++ [factor])) (nonzero : q ≠ 0) :
    (distribute (Expr.withCoefficient q before) (ofFactor factor) : Except Error Expr) =
      .ok (Expr.withCoefficient q (before ++ [factor])) := by
  obtain ⟨left, left_whole, left_coefficient, left_part⟩ :=
    (whole.sublist (List.sublist_append_left ..)).withCoefficient nonzero
  obtain ⟨right, right_whole, right_coefficient, right_part⟩ :=
    (whole.sublist (List.sublist_append_right ..)).withCoefficient one_ne_zero
  rw [withCoefficient_one_singleton] at right right_whole right_coefficient right_part
  rw [distribute_eq_productOf left right left_whole right_whole]
  refine productOf_partsOf (whole.keptFactors (by simp)) ?_ ?_
  · rw [collectCoefficient, collectCoefficient, collectCoefficient, left_coefficient,
      right_coefficient, mul_one, mul_one]
  · rw [List.flatMap_cons, List.flatMap_singleton, left_part, right_part]

/-- Parts that are their own expansions are multiplied up one by one. -/
theorem WholeFactors.foldlM {before after : List Factor} {q : Rat}
    (whole : WholeFactors (before ++ after)) (nonzero : q ≠ 0)
    (parts : ∀ part ∈ partsOf after, (expand part : Except Error Expr) = .ok part) :
    (partsOf after).foldlM (fun acc part => do SymbolicAlgebra.distribute acc (← expand part))
      (Expr.withCoefficient q before) =
        (.ok (Expr.withCoefficient q (before ++ after)) : Except Error Expr) := by
  induction after generalizing before with
  | nil =>
    rw [List.append_nil]
    rfl
  | cons factor rest ih =>
    have split : before ++ factor :: rest = before ++ [factor] ++ rest := by simp
    rw [split] at whole ⊢
    have step := (whole.sublist (List.sublist_append_left ..)).distribute nonzero
    obtain ⟨first, later⟩ := List.forall_mem_cons.mp parts
    have folded := ih whole later
    rw [partsOf, List.map_cons, List.foldlM_cons, first]
    exact bind_eq_ok_iff.mpr ⟨_, step, folded⟩

end Products

/-- The constant zero may as well be left out of a sum. -/
theorem sumOf_append_number {es : List Expr} (canonical : ∀ e ∈ es, e.Canonical) (q : Rat) :
    sumOf (es ++ [number q]) = sumOf (es ++ constantSummands q) := by
  unfold constantSummands
  split
  · rename_i zero
    subst zero
    have with_zero : ∀ e ∈ es ++ [number 0], e.Canonical :=
      List.forall_mem_append.mpr ⟨canonical, List.forall_mem_singleton.mpr (canonical_number 0)⟩
    rw [List.append_nil]
    refine (canonical_sumOf with_zero).ext (canonical_sumOf canonical) fun k => ?_
    rw [coordinate_sumOf with_zero, coordinate_sumOf canonical, List.map_append, List.sum_append,
      List.map_singleton, List.sum_singleton, coordinate_number_zero, add_zero]
  · rfl

/-- A power is raised whose base comes out as no sum, or that has no positive integer exponent. -/
theorem expand_power_of_spent {b x b' x' : Expr} (base : (expand b : Except Error Expr) = .ok b')
    (exponent : (expand x : Except Error Expr) = .ok x') (spent : Spent (b', x')) :
    (expand (power b x) : Except Error Expr) = powerOf b' x' := by
  rw [expand, base, exponent]
  dsimp only [bind, Except.bind]
  split
  · rename_i c terms n integer
    exact if_neg (spent c terms n rfl (integer?_eq_some_iff.mp integer))
  · rfl

/-- A sum of terms that are their own expansions is its own expansion. -/
theorem expand_sum_self {constant : Rat} {terms : List Multiple}
    (canonical : (sum constant terms).Canonical)
    (parts : ∀ t q, (t, q) ∈ terms → (expand t : Except Error Expr) = .ok t) :
    (expand (sum constant terms) : Except Error Expr) = .ok (sum constant terms) := by
  have valid := canonical.valid_linearForm
  have expanded : (terms.mapM fun multiple => scale multiple.2 <$> expand multiple.1) =
      (.ok (terms.map fun multiple => multiple.1.scale multiple.2) : Except Error _) := by
    refine mapM_eq_ok_map fun multiple stored => ?_
    rw [parts multiple.1 multiple.2 stored]
    rfl
  have scaled : ∀ e ∈ terms.map fun multiple => multiple.1.scale multiple.2, e.Canonical := by
    intro e member
    obtain ⟨⟨t, q⟩, stored, rfl⟩ := List.mem_map.mp member
    exact (valid.canonical t q stored).scale q
  rw [expand_sum, expanded]
  refine congrArg Except.ok ?_
  dsimp only
  rw [sumOf_append_number scaled, ← operands_sum, sumOf_operands canonical]

/-- A product of parts that are their own expansions, with no bare sum among them, is its own
expansion. -/
theorem expand_product_self {q : Rat} {factors : List Factor}
    (canonical : (product q factors).Canonical)
    (not_sum : ∀ c terms, (sum c terms, number 1) ∉ factors)
    (parts : ∀ part ∈ partsOf factors, (expand part : Except Error Expr) = .ok part) :
    (expand (product q factors) : Except Error Expr) = .ok (product q factors) := by
  obtain ⟨nonzero, not_lone, kept⟩ := canonical_product_iff.mp canonical
  have whole : WholeFactors ([] ++ factors) :=
    ⟨⟨kept.increasing, kept.bases_canonical, kept.exponents_canonical⟩, kept.factor, not_sum⟩
  have folded := whole.foldlM nonzero parts
  have start : Expr.withCoefficient q [] = number q := if_neg nonzero
  rw [start, List.nil_append, withCoefficient_eq_product nonzero kept.nonempty not_lone] at folded
  rw [expand_product, folded]

theorem expand_ofFactor_self {b x : Expr} (factor : CanonicalFactor b x) (spent : Spent (b, x))
    (base : (expand b : Except Error Expr) = .ok b)
    (exponent : (expand x : Except Error Expr) = .ok x) :
    (expand (ofFactor (b, x)) : Except Error Expr) = .ok (ofFactor (b, x)) := by
  have raised := powerOf_of_canonicalFactor factor
  unfold ofFactor at raised ⊢
  split
  · exact base
  · rename_i other
    rw [if_neg other] at raised
    rw [expand_power_of_spent base exponent spent, raised]

/-- An expression in which no positive integer power of a sum is left is its own expansion. -/
theorem expand_of_exhausted {e : Expr} (canonical : e.Canonical) (exhausted : e.Each Spent) :
    (expand e : Except Error Expr) = .ok e := by
  induction e using Expr.induction with
  | sum constant terms ih =>
    have valid := canonical.valid_linearForm
    exact expand_sum_self canonical fun t q stored =>
      ih t q stored (valid.canonical t q stored) (each_sum.mp exhausted t q stored)
  | product q factors ih =>
    obtain ⟨_, _, kept⟩ := canonical_product_iff.mp canonical
    have each := each_product.mp exhausted
    refine expand_product_self canonical
      (fun c terms stored => (each _ stored).here c terms 1 rfl (by simp) one_pos) ?_
    intro part member
    obtain ⟨⟨b, x⟩, stored, rfl⟩ := List.mem_map.mp member
    obtain ⟨spent, each_base, each_exponent⟩ := each _ stored
    exact expand_ofFactor_self (kept.factor b x stored) spent
      ((ih b x stored).1 (kept.bases_canonical b x stored) each_base)
      ((ih b x stored).2 (kept.exponents_canonical b x stored) each_exponent)
  | power b x base exponent =>
    obtain ⟨spent, each_base, each_exponent⟩ := each_power.mp exhausted
    cases canonical with
    | power form base_canonical exponent_canonical =>
      rw [expand_power_of_spent (base base_canonical each_base)
        (exponent exponent_canonical each_exponent) spent]
      exact powerOf_of_canonicalPower form
  | _ => exact expand_eq_self (by simp) (by simp) (by simp)

end SymbolicAlgebra
