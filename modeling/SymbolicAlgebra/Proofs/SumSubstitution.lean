import SymbolicAlgebra.Proofs.LinearOperations

namespace SymbolicAlgebra

open SymbolicAlgebra.Expr

section Rebuilding

variable {V : Type}

theorem Part.value_of_not_isChanged {part : Part V} (unchanged : ¬ part.isChanged = true) :
    part.value = part.before := by
  obtain ⟨before, after⟩ := part
  cases after with
  | none => rfl
  | some r => exact absurd rfl unchanged

/-- What is not rebuilt would be built again from the same parts. -/
theorem getD_rebuild {build : List V → Except Error V} {whole : V} {parts : List (Part V)}
    (same : build (parts.map Part.before) = .ok whole) :
    (fun after => after.getD whole) <$> rebuild parts build = build (parts.map Part.value) := by
  unfold rebuild
  split
  · rw [Functor.map_map]
    exact id_map _
  · rename_i unchanged
    have values : parts.map Part.value = parts.map Part.before :=
      List.map_congr_left fun part member => Part.value_of_not_isChanged fun changed =>
        unchanged (List.any_eq_true.mpr ⟨part, member, changed⟩)
    rw [values, same]
    rfl

theorem getD_rebuildPair {build : V → V → Except Error V} {whole : V} {first second : Part V}
    (same : build first.before second.before = .ok whole) :
    (fun after => after.getD whole) <$> rebuildPair first second build =
      build first.value second.value := by
  unfold rebuildPair
  split
  · rw [Functor.map_map]
    exact id_map _
  · rename_i unchanged
    rw [Bool.or_eq_true, not_or] at unchanged
    rw [Part.value_of_not_isChanged unchanged.1, Part.value_of_not_isChanged unchanged.2, same]
    rfl

end Rebuilding

section Substitute

variable {map : Substitution Expr}

/-- What is not rewritten stays as it is. -/
theorem substitute_eq (e : Expr) : (substitute map e : Except Error Expr) =
    (fun after => after.getD e) <$> rewrite map e := by
  unfold substitute
  split
  · rename_i empty
    obtain rfl := List.isEmpty_iff.mp empty
    have unlisted (part : Expr) : ¬ Substitution.HasKey [] part := by
      rintro ⟨pair, member, _⟩
      cases member
    rw [rewrite_eq_none ⟨fun part _ => unlisted part, fun _ _ _ name _ => unlisted (symbol name)⟩
      (fun _ _ _ _ _ r listed => by cases listed) .refl]
    rfl
  · exact bind_pure_comp (fun after => Option.getD after e) _

theorem substitute_of_find {e r : Expr} (listed : map.find e = some r) :
    (substitute map e : Except Error Expr) = .ok r := by
  rw [substitute_eq, rewrite_of_find listed]
  split
  · rename_i same
    exact congrArg Except.ok same
  · rfl

theorem substitute_number (q : Rat) : (substitute map (number q) : Except Error Expr) =
    .ok ((map.find (number q)).getD (number q)) := by
  cases listed : map.find (number q) with
  | none =>
    rw [substitute_eq, rewrite_number listed]
    rfl
  | some r => exact substitute_of_find listed

theorem value_rewriteTerm (multiple : Multiple) :
    Part.value <$> rewriteTerm map multiple = substitute map (multiple.1.scale multiple.2) := by
  rw [substitute_eq, rewriteTerm, Functor.map_map]
  rfl

theorem before_constantParts (constant : Rat) :
    (numberParts map 0 constant).map Part.before = constantSummands constant := by
  unfold constantSummands numberParts
  split <;> rfl

/-- The constant of a sum is substituted as a number; zero is no operand. -/
theorem mapM_substitute_constantSummands (constant : Rat) :
    ((constantSummands constant).mapM (substitute map) : Except Error (List Expr)) =
      .ok ((numberParts map 0 constant).map Part.value) := by
  unfold constantSummands numberParts
  split
  · rfl
  · rw [List.mapM_cons, substitute_number]
    rfl

/-- A sum that is not listed itself is substituted operand by operand. -/
theorem substitute_sum {constant : Rat} {terms : List Multiple}
    (canonical : (sum constant terms).Canonical)
    (unlisted : map.find (sum constant terms) = none) :
    (substitute map (sum constant terms) : Except Error Expr) =
      sumOf <$> (sum constant terms).operands.mapM (substitute map) := by
  have values : (terms.map fun multiple => multiple.1.scale multiple.2).mapM (substitute map) =
      List.map Part.value <$> terms.mapM (rewriteTerm map) := by
    rw [← mapM_map_result, List.mapM_map]
    exact congrArg (List.mapM · terms) (funext fun multiple => (value_rewriteTerm multiple).symm)
  rw [substitute_eq, rewrite_sum unlisted, operands_sum, List.mapM_append, values,
    mapM_substitute_constantSummands]
  cases rewritten : terms.mapM (rewriteTerm map) with
  | error cause => rfl
  | ok parts =>
    have before : parts.map Part.before = terms.map fun multiple => multiple.1.scale multiple.2 :=
      map_eq_map_of_mapM rewritten fun multiple _ part found => by
        obtain ⟨after, _, rfl⟩ := map_eq_ok_iff.mp found
        rfl
    refine (getD_rebuild ?_).trans ?_
    · rw [List.map_append, before, before_constantParts]
      exact congrArg Except.ok (sumOf_operands canonical)
    · rw [List.map_append]
      rfl

/-- A power that is not listed itself is substituted in its base and in its exponent. -/
theorem substitute_power {b e : Expr} (form : CanonicalPower b e)
    (unlisted : map.find (power b e) = none) :
    (substitute map (power b e) : Except Error Expr) = (do
      let b' ← substitute map b
      let e' ← substitute map e
      powerOf b' e') := by
  rw [substitute_eq, rewrite_power unlisted, substitute_eq b, substitute_eq e]
  cases (rewrite map b : Except Error (Option Expr)) with
  | error cause => rfl
  | ok base =>
    cases (rewrite map e : Except Error (Option Expr)) with
    | error cause => rfl
    | ok exponent => exact getD_rebuildPair (powerOf_of_canonicalPower form)

/-- No sum as a whole is replaced. -/
def Substitution.SparesSums (map : Substitution Expr) : Prop :=
  ∀ constant terms, ¬ map.HasKey (sum constant terms)

theorem additive_substitute (values : map.Canonical) (spares : map.SparesSums) :
    Additive (substitute map) where
  canonical found canonical := canonical_substitute values found canonical
  sum_iff canonical := by
    rw [substitute_sum canonical (Substitution.find_eq_none_iff.mpr (spares _ _))]

end Substitute

/-- A sum is substituted as its parts are outside of it. If no sum is replaced as a whole and the
summands share no term and not both have a constant, the sum can be substituted exactly when the
summands can, and becomes the sum of what they become. -/
theorem substitute_sumOf_apart {map : Substitution Expr} (values : map.Canonical)
    (spares : map.SparesSums) {a b : Expr} (left : a.Canonical) (right : b.Canonical)
    (left_nonzero : a ≠ number 0) (right_nonzero : b ≠ number 0) (apart : a.Apart b) :
    ((∃ r, (substitute map (sumOf [a, b]) : Except Error Expr) = .ok r) ↔
      (∃ a', (substitute map a : Except Error Expr) = .ok a') ∧
        ∃ b', (substitute map b : Except Error Expr) = .ok b') ∧
    ∀ a' b', (substitute map a : Except Error Expr) = .ok a' →
      (substitute map b : Except Error Expr) = .ok b' →
      (substitute map (sumOf [a, b]) : Except Error Expr) = .ok (sumOf [a', b']) :=
  (additive_substitute values spares).sumOf_apart apart left right left_nonzero right_nonzero

/-- With `2` listed and `x*y` as well, `2*x*y` becomes `z*(w + 1)` in `(2*x*y) + (x + 2)` and outside,
and `x + 2` becomes `x + z`. -/
theorem substitute_sumOf_apart_coefficient :
    (substitute [(number 2, symbol "z"), (product 1 [(symbol "x", number 1), (symbol "y", number 1)],
        sum 1 [(symbol "w", 1)])]
      (sumOf [product 2 [(symbol "x", number 1), (symbol "y", number 1)],
        sum 2 [(symbol "x", 1)]]) : Except Error Expr) =
    .ok (sumOf [product 1 [(symbol "z", number 1), (sum 1 [(symbol "w", 1)], number 1)],
      sum 0 [(symbol "x", 1), (symbol "z", 1)]]) := by
  have twice : (product 2 [(symbol "x", number 1), (symbol "y", number 1)]).Canonical :=
    @canonical_productOf [number 2, symbol "x", symbol "y"] _ (by cbv)
      (List.forall_mem_cons.mpr ⟨canonical_number 2, canonical_pair (.symbol "x") (.symbol "y")⟩)
  have shifted : (sum 2 [(symbol "x", 1)]).Canonical :=
    (by cbv : sumOf [symbol "x", number 2] = sum 2 [(symbol "x", 1)]) ▸
      canonical_sumOf_pair (.symbol "x") (canonical_number 2)
  refine (substitute_sumOf_apart ?_ ?_ twice shifted (by simp) (by simp) ⟨?_, ?_⟩).2 _ _ ?_ ?_
  · intro pair member
    simp only [List.mem_cons, List.not_mem_nil, or_false] at member
    rcases member with rfl | rfl
    · exact .symbol "z"
    · exact canonical_successor "w"
  · rintro constant terms ⟨pair, member, same⟩
    simp only [List.mem_cons, List.not_mem_nil, or_false] at member
    rcases member with rfl | rfl <;> cases same
  · intro t q r first second
    cases List.mem_singleton.mp second
    simp [termPart, withCoefficient] at first
  · exact .inl rfl
  · cbv
  · cbv

end SymbolicAlgebra
