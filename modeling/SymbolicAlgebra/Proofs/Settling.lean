import SymbolicAlgebra.Proofs.ProductRun

namespace SymbolicAlgebra

open SymbolicAlgebra.Expr

/-- The same up to the order of what is kept and of what was rewritten. -/
structure Settled.Perm (settled others : Settled) : Prop where
  coefficient : settled.coefficient = others.coefficient
  kept : settled.kept.Perm others.kept
  rewritten : settled.rewritten.Perm others.rewritten

namespace Settled

theorem Perm.refl (settled : Settled) : settled.Perm settled :=
  ⟨rfl, List.Perm.refl _, List.Perm.refl _⟩

theorem Perm.trans {first second third : Settled} (left : first.Perm second)
    (right : second.Perm third) : first.Perm third :=
  ⟨left.coefficient.trans right.coefficient, left.kept.trans right.kept,
    left.rewritten.trans right.rewritten⟩

theorem Perm.rewritten_eq_nil_iff {settled others : Settled} (perm : settled.Perm others) :
    settled.rewritten = [] ↔ others.rewritten = [] := by
  rw [← List.length_eq_zero_iff, perm.rewritten.length_eq, List.length_eq_zero_iff]

/-- What becomes of some factors, and then of others. -/
def append (settled others : Settled) : Settled where
  coefficient := settled.coefficient * others.coefficient
  kept := settled.kept ++ others.kept
  rewritten := settled.rewritten ++ others.rewritten

/-- What becomes of a factor is put in front, whatever became of the others. -/
theorem add_eq_append (settled : Settled) (factor : Factor) (r : Expr) :
    settled.add factor r = (add ⟨1, [], []⟩ factor r).append settled := by
  unfold add
  split
  · simp [append]
  · simp [append]
  · split <;> simp [append]

theorem append_assoc (first second third : Settled) :
    (first.append second).append third = first.append (second.append third) := by
  simp only [append, mul_assoc, List.append_assoc]

theorem nil_append (settled : Settled) : append ⟨1, [], []⟩ settled = settled := by
  simp only [append, one_mul, List.nil_append]

theorem Perm.append_left {settled others : Settled} (first : Settled) (perm : settled.Perm others) :
    (first.append settled).Perm (first.append others) := by
  refine ⟨?_, perm.kept.append_left _, perm.rewritten.append_left _⟩
  simp only [append, perm.coefficient]

theorem append_perm_append (first second third : Settled) :
    (first.append (second.append third)).Perm (second.append (first.append third)) :=
  ⟨mul_left_comm .., List.perm_append_comm_assoc .., List.perm_append_comm_assoc ..⟩

theorem Perm.add {settled others : Settled} (perm : settled.Perm others) (factor : Factor)
    (r : Expr) : (settled.add factor r).Perm (others.add factor r) := by
  rw [settled.add_eq_append, others.add_eq_append]
  exact perm.append_left _

theorem add_perm_add (settled : Settled) (factor other : Factor) (r s : Expr) :
    ((settled.add factor r).add other s).Perm ((settled.add other s).add factor r) := by
  rw [(settled.add factor r).add_eq_append, settled.add_eq_append factor,
    (settled.add other s).add_eq_append, settled.add_eq_append other]
  exact append_perm_append ..

end Settled

/-- In another order the same factors settle to the same, up to order. -/
theorem SettleRun.perm {factors others : List Factor} {settled : Settled}
    (run : SettleRun factors settled) (perm : factors.Perm others) :
    ∃ settled', SettleRun others settled' ∧ settled.Perm settled' := by
  induction perm generalizing settled with
  | nil => exact ⟨settled, run, .refl _⟩
  | cons factor _ ih =>
    cases run with
    | dropped tail =>
      obtain ⟨settled', tail', same⟩ := ih tail
      exact ⟨settled', .dropped tail', same⟩
    | raised exponent power tail =>
      obtain ⟨settled', tail', same⟩ := ih tail
      exact ⟨_, .raised exponent power tail', same.add _ _⟩
  | swap first second rest =>
    cases run with
    | dropped tail =>
      cases tail with
      | dropped tail => exact ⟨_, .dropped (.dropped tail), .refl _⟩
      | raised exponent power tail => exact ⟨_, .raised exponent power (.dropped tail), .refl _⟩
    | raised exponent power tail =>
      cases tail with
      | dropped tail => exact ⟨_, .dropped (.raised exponent power tail), .refl _⟩
      | raised exponent' power' tail =>
        exact ⟨_, .raised exponent' power' (.raised exponent power tail),
          Settled.add_perm_add _ _ _ _ _⟩
  | trans _ _ first second =>
    obtain ⟨middle, run', left⟩ := first run
    obtain ⟨settled', run'', right⟩ := second run'
    exact ⟨settled', run'', left.trans right⟩

theorem exists_settledFactors_perm {factors others : List Factor} (perm : factors.Perm others)
    {settled : Settled} (found : (settledFactors factors : Except Error Settled) = .ok settled) :
    ∃ settled', (settledFactors others : Except Error Settled) = .ok settled' ∧
      settled.Perm settled' := by
  obtain ⟨settled', run, same⟩ := (settledFactors_eq_ok_iff.mp found).perm perm
  exact ⟨settled', settledFactors_eq_ok_iff.mpr run, same⟩

/-- Whatever the order, the same factors are refused. -/
theorem exists_settledFactors_error_perm {factors others : List Factor}
    (perm : factors.Perm others) {c : Error}
    (refused : (settledFactors factors : Except Error Settled) = .error c) :
    ∃ d, (settledFactors others : Except Error Settled) = .error d := by
  cases found : (settledFactors others : Except Error Settled) with
  | error d => exact ⟨d, rfl⟩
  | ok settled =>
    obtain ⟨settled', found', _⟩ := exists_settledFactors_perm perm.symm found
    rw [refused] at found'
    cases found'

end SymbolicAlgebra
