import SymbolicAlgebra.Proofs.Closure
import SymbolicAlgebra.Proofs.Transport

namespace SymbolicAlgebra

open SymbolicAlgebra.Expr

theorem canonical_ofPairs {pairs : List (Expr × Expr)}
    (canonical : ∀ v ∈ pairs.flatMap fun (k, r) => [k, r], v.Canonical) :
    (Substitution.ofPairs pairs).Canonical := by
  rintro ⟨key, replacement⟩ member
  exact canonical replacement
    (List.mem_flatMap.mpr ⟨(key, replacement), List.mem_reverse.mp member, by simp⟩)

/-- Every operation on canonical expressions gives a canonical expression. -/
theorem Construction.canonical_result {c : Construction Expr} {r : Expr}
    (found : (c.result : Except Error Expr) = .ok r) (canonical : ∀ v ∈ c.values, v.Canonical) :
    r.Canonical := by
  cases c with
  | number q =>
    cases found
    exact canonical_number q
  | symbol name =>
    cases found
    exact .symbol name
  | ratio n d =>
    simp only [result, ratioOf] at found
    split at found
    · obtain ⟨q, _, rfl⟩ := map_eq_ok_iff.mp found
      exact canonical_number q
    · cases found
  | sum summands => exact canonical_summed found canonical
  | product operands => exact canonical_productOf found canonical
  | power b e =>
    exact canonical_powerOf found (canonical b (by simp [values])) (canonical e (by simp [values]))
  | difference l r =>
    have left := canonical l (by simp [values])
    have right := canonical r (by simp [values])
    exact canonical_summed found (by simp [left, right.scale, negate])
  | quotient l r =>
    have left := canonical l (by simp [values])
    have right := canonical r (by simp [values])
    obtain ⟨inverse, inverted, found⟩ := bind_eq_ok_iff.mp found
    have reciprocal := canonical_powerOf inverted right (canonical_number (-1))
    exact canonical_productOf found (by simp [left, reciprocal])
  | negation a =>
    cases found
    exact (canonical a (by simp [values])).scale (-1)
  | absolute a =>
    cases found
    exact canonical_absolute (canonical a (by simp [values]))
  | sin a =>
    cases found
    exact canonical_sineOf (canonical a (by simp [values]))
  | cos a =>
    cases found
    exact canonical_cosineOf (canonical a (by simp [values]))
  | apply name a =>
    cases found
    exact .apply (canonical a (by simp [values]))
  | formalDerivative a xs =>
    obtain ⟨names, _, found⟩ := bind_eq_ok_iff.mp found
    cases found
    unfold SymbolicAlgebra.formalDerivative
    split
    · exact canonical a (by simp [values])
    · rename_i nonempty
      exact .derivative nonempty (canonical a (by simp [values]))
  | derivative a x =>
    obtain ⟨name, _, found⟩ := bind_eq_ok_iff.mp found
    exact canonical_derivativeBy found (canonical a (by simp [values]))
  | expansion a => exact canonical_expand found (canonical a (by simp [values]))
  | substitution a pairs =>
    obtain ⟨target, replacements⟩ := List.forall_mem_cons.mp canonical
    exact canonical_substitute (canonical_ofPairs replacements) found target
  | operand a i =>
    simp only [result] at found
    split at found
    · rename_i e inside
      cases found
      exact canonical_operands (canonical a (by simp [values])) _ (List.mem_of_getElem? inside)
    · cases found
  | base a =>
    cases found
    exact (canonical_toFactor (canonical a (by simp [values]))).1
  | exponent a =>
    cases found
    exact (canonical_toFactor (canonical a (by simp [values]))).2

theorem Construction.map_id {V : Type} (c : Construction V) : c.map id = c := by
  cases c <;> simp [map]

section Evaluation

variable {V : Type} {P : V → Prop} {construct : Construction V → Except Error V}

/-- Whatever the operations make of values with the property has the property. -/
def Preserves (construct : Construction V → Except Error V) (P : V → Prop) : Prop :=
  ∀ c r, construct c = .ok r → (∀ v ∈ c.values, P v) → P r

theorem Preserves.transports (closed : Preserves construct P) :
    Transports construct construct id P := by
  intro c each
  rw [c.map_id] at each ⊢
  cases result : construct c with
  | error cause => exact EndAlike.error
  | ok r => exact EndAlike.ok ⟨rfl, closed c r result each⟩

namespace Term

/-- A property that every operation preserves holds of whatever a term gives. -/
theorem evaluateWith_preserves (closed : Preserves construct P) {t : Term} {bindings : Bindings V}
    {r : V} (bound : bindings.All P) (found : t.evaluateWith construct bindings = .ok r) : P r := by
  have unchanged : bindings.map id = bindings := by simp [Bindings.map]
  have follows := follows_evaluateWith closed.transports t (unchanged.symm ▸ bound)
  rw [unchanged, found] at follows
  cases follows with
  | ok image => exact image.2

/-- Canonical-form invariant: whatever is built from canonical expressions by any number of
operations is canonical at every depth. -/
theorem evaluate_canonical {t : Term} {bindings : Bindings Expr} {e : Expr}
    (bound : bindings.All Canonical) (found : (t.evaluate bindings : Except Error Expr) = .ok e) :
    e.Canonical :=
  evaluateWith_preserves (fun _ _ => Construction.canonical_result) bound found

/-- A quotient of a product in which a symbol cancels. -/
theorem evaluate_canonical_quotient :
    ((quotient (product [integer 2, reference "u", power (symbol "y") (symbol "n")])
      (reference "u")).evaluate ⟨fun _ => some (.symbol "x"), none⟩ : Except Error Expr) =
        .ok (.product 2 [(.symbol "y", .symbol "n")]) ∧
      (Expr.product 2 [(.symbol "y", .symbol "n")]).Canonical := by
  have found : ((quotient (product [integer 2, reference "u", power (symbol "y") (symbol "n")])
      (reference "u")).evaluate ⟨fun _ => some (.symbol "x"), none⟩ : Except Error Expr) =
        .ok (.product 2 [(.symbol "y", .symbol "n")]) := by cbv
  refine ⟨found, evaluate_canonical ⟨?_, ?_⟩ found⟩
  · intro name v bound
    cases bound
    exact .symbol "x"
  · intro v bound
    cases bound

end Term

end Evaluation

end SymbolicAlgebra
