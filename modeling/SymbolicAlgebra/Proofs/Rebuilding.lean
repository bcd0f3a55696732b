import SymbolicAlgebra.Proofs.SymbolSubstitution

namespace SymbolicAlgebra

open SymbolicAlgebra.Expr

theorem productOf_operands {q : Rat} {factors : List Factor}
    (canonical : (product q factors).Canonical) :
    (productOf (product q factors).operands : Except Error Expr) = .ok (product q factors) := by
  obtain ⟨nonzero, not_lone, kept⟩ := canonical_product_iff.mp canonical
  have whole := withCoefficient_eq_product nonzero kept.nonempty not_lone
  exact (productOf_coefficientOperands kept q).trans (congrArg Except.ok whole)

/-- A canonical expression is the power of its base to its exponent. -/
theorem powerOf_toFactor {e : Expr} (canonical : e.Canonical) :
    (powerOf e.toFactor.1 e.toFactor.2 : Except Error Expr) = .ok e := by
  cases canonical with
  | power form base exponent => exact powerOf_of_canonicalPower form
  | _ => exact powerOf_one _

section Parts

variable {map : Substitution Expr}

/-- What is replaced or not at all is one of the two outcomes of rewriting. -/
theorem exists_rewrite_of_substitute {a a' : Expr}
    (found : (substitute map a : Except Error Expr) = .ok a') :
    ∃ after, (rewrite map a : Except Error (Option Expr)) = .ok after ∧ after.getD a = a' := by
  rw [substitute_eq] at found
  exact map_eq_ok_iff.mp found

/-- A function of an argument is built again or left as it is. -/
theorem substitute_argument {f : Expr → Expr} {a a' e : Expr}
    (rule : (rewrite map e : Except Error (Option Expr)) = Option.map f <$> rewrite map a)
    (built : f a = e) (found : (substitute map a : Except Error Expr) = .ok a') :
    (substitute map e : Except Error Expr) = .ok (f a') := by
  obtain ⟨after, rewritten, rfl⟩ := exists_rewrite_of_substitute found
  rw [substitute_eq, rule, rewritten]
  cases after with
  | none => exact congrArg Except.ok built.symm
  | some r => rfl

/-- A formal derivative is substituted in its target, and its variables are renamed. -/
theorem substitute_derivative {a a' : Expr} {names names' : List String}
    (unlisted : map.find (derivative a names) = none)
    (renamed : (names.mapM (rename map) : Except Error (List String)) = .ok names')
    (found : (substitute map a : Except Error Expr) = .ok a') :
    (substitute map (derivative a names) : Except Error Expr) = .ok (derivative a' names') := by
  obtain ⟨after, rewritten, rfl⟩ := exists_rewrite_of_substitute found
  have result : (if after.isNone ∧ names' = names then none
      else some (derivative (after.getD a) names')).getD (derivative a names) =
        derivative (after.getD a) names' := by
    split
    · rename_i unchanged
      rw [Option.isNone_iff_eq_none.mp unchanged.1, unchanged.2]
      rfl
    · rfl
  rw [substitute_eq, rewrite_derivative unlisted, renamed, rewritten]
  exact congrArg Except.ok result

end Parts

/-- Whatever is listed is listed with itself. -/
def Substitution.IsIdentity (map : Substitution Expr) : Prop :=
  ∀ pair ∈ map, pair.2 = pair.1

section Identity

variable {map : Substitution Expr} (identity : map.IsIdentity)

include identity

theorem Substitution.IsIdentity.find {e r : Expr} (listed : map.find e = some r) : r = e :=
  identity (e, r) (mem_of_find listed)

theorem Substitution.IsIdentity.find_getD (e : Expr) : (map.find e).getD e = e := by
  cases listed : map.find e with
  | none => rfl
  | some r => exact identity.find listed

theorem rename_of_identity (name : String) :
    (rename map name : Except Error String) = .ok name := by
  unfold rename
  cases listed : map.find (symbol name) with
  | none => rfl
  | some r =>
    cases identity.find listed
    rfl

/-- A factor whose base and exponent come back comes back, whether or not it is listed itself. -/
theorem rewriteFactor_of_identity {b e : Expr} (factor : CanonicalFactor b e)
    (base : (substitute map b : Except Error Expr) = .ok b)
    (exponent : (substitute map e : Except Error Expr) = .ok e) :
    ∃ after, rewriteFactor map (b, e) = .ok ⟨ofFactor (b, e), after⟩ ∧
      Part.value ⟨ofFactor (b, e), after⟩ = ofFactor (b, e) := by
  unfold rewriteFactor
  cases listed : map.find (ofFactor (b, e)) with
  | some r => exact ⟨some r, rfl, identity.find listed⟩
  | none =>
    obtain ⟨base', rewritten_base, back_base⟩ := exists_rewrite_of_substitute base
    obtain ⟨exponent', rewritten_exponent, back_exponent⟩ := exists_rewrite_of_substitute exponent
    have raised := powerOf_of_canonicalFactor factor
    have rebuilt := @getD_rebuildPair _ _ _ ⟨b, base'⟩ ⟨e, exponent'⟩ raised
    have values : (powerOf (Part.value ⟨b, base'⟩) (Part.value ⟨e, exponent'⟩) :
        Except Error Expr) = .ok (ofFactor (b, e)) := by
      rw [Part.value, Part.value, back_base, back_exponent]
      exact raised
    obtain ⟨after, found, value⟩ := map_eq_ok_iff.mp (rebuilt.trans values)
    refine ⟨after, ?_, value⟩
    dsimp only
    rw [rewritten_base, rewritten_exponent]
    exact map_eq_ok_iff.mpr ⟨after, found, rfl⟩

theorem value_numberParts_of_identity (neutral q : Rat) :
    (numberParts map neutral q).map Part.value = (numberParts map neutral q).map Part.before := by
  unfold numberParts
  split
  · rfl
  · exact congrArg (fun e => [e]) (identity.find_getD (number q))

/-- A product that is not listed is put together again from its coefficient and its factors, or from
its coefficient and the product of the factors. -/
theorem substitute_product_of_identity {q : Rat} {factors : List Factor}
    (canonical : (product q factors).Canonical) (unlisted : map.find (product q factors) = none)
    (bases : ∀ b e, (b, e) ∈ factors → (substitute map b : Except Error Expr) = .ok b)
    (exponents : ∀ b e, (b, e) ∈ factors → (substitute map e : Except Error Expr) = .ok e) :
    (substitute map (product q factors) : Except Error Expr) = .ok (product q factors) := by
  obtain ⟨nonzero, not_lone, kept⟩ := canonical_product_iff.mp canonical
  have whole := withCoefficient_eq_product nonzero kept.nonempty not_lone
  rw [substitute_eq]
  rcases map.rest_cases q (withCoefficient 1 factors) with ⟨scaled, r, listed⟩ | rest
  · rw [rewrite_product_of_rest unlisted scaled listed, identity.find_getD, identity.find listed,
      productOf_number q (kept.canonical_withCoefficient 1), kept.scale_withCoefficient, mul_one,
      whole]
    rfl
  · choose! after rewritten value using fun factor (stored : factor ∈ factors) =>
      rewriteFactor_of_identity identity (kept.factor factor.1 factor.2 stored)
        (bases factor.1 factor.2 stored) (exponents factor.1 factor.2 stored)
    let parts := factors.map fun factor => Part.mk (ofFactor factor) (after factor)
    have same : productOf ((numberParts map 1 q ++ parts).map Part.before) =
        (.ok (product q factors) : Except Error Expr) := by
      rw [List.map_append, before_numberParts, List.map_map]
      exact productOf_operands canonical
    rw [rewrite_product unlisted rest, mapM_eq_ok_map rewritten]
    refine (getD_rebuild same).trans (Eq.trans ?_ same)
    rw [List.map_append, List.map_append, value_numberParts_of_identity identity, List.map_map,
      List.map_map]
    exact congrArg (fun parts => productOf (_ ++ parts)) (List.map_congr_left value)

/-- A substitution that replaces expressions by themselves changes nothing. The expression is taken
apart as far as nothing is listed, and every part is put together again. -/
theorem substitute_of_identity : ∀ {e : Expr}, e.Canonical →
    (substitute map e : Except Error Expr) = .ok e
  | e, canonical => by
    cases listed : map.find e with
    | some r => rw [substitute_of_find listed, identity.find listed]
    | none =>
      cases canonical with
      | number form => rw [substitute_number, listed]; rfl
      | symbol name => rw [substitute_eq, rewrite_symbol listed]; rfl
      | @sum constant terms form each =>
        have operand : ∀ o ∈ (Expr.sum constant terms).operands,
            (substitute map o : Except Error Expr) = .ok (id o) := fun o member =>
          substitute_of_identity (canonical_operands (.sum form each) o member)
        rw [substitute_sum (.sum form each) listed, mapM_eq_ok_map operand, List.map_id]
        exact congrArg Except.ok (sumOf_operands (.sum form each))
      | @product q factors form bases exponents =>
        exact substitute_product_of_identity identity (.product form bases exponents) listed
          (fun b x stored => substitute_of_identity (bases b x stored))
          fun b x stored => substitute_of_identity (exponents b x stored)
      | power form base exponent =>
        rw [substitute_power form listed, substitute_of_identity base,
          substitute_of_identity exponent]
        exact powerOf_of_canonicalPower form
      | @sin a form argument =>
        have built : sineOf a = Expr.sin a := if_neg (mt isNumber_iff.mp form)
        exact (substitute_argument (rewrite_sin listed) built
          (substitute_of_identity argument)).trans (congrArg Except.ok built)
      | @cos a form argument =>
        have built : cosineOf a = Expr.cos a := if_neg (mt isNumber_iff.mp form)
        exact (substitute_argument (rewrite_cos listed) built
          (substitute_of_identity argument)).trans (congrArg Except.ok built)
      | apply argument =>
        exact substitute_argument (rewrite_apply listed) rfl (substitute_of_identity argument)
      | @derivative a names form target =>
        have renamed : (names.mapM (rename map) : Except Error (List String)) =
            .ok (names.map id) := mapM_eq_ok_map fun name _ => rename_of_identity identity name
        rw [List.map_id] at renamed
        exact substitute_derivative listed renamed (substitute_of_identity target)
termination_by e => e.size
decreasing_by
  · exact size_operand_lt member
  iterate 2
    have := size_factor_lt stored
    simp only [size]
    omega
  all_goals
    simp only [size]
    omega

end Identity

/-- Canonical expressions can be taken apart and put together again: a sum from its operands, a
product from its operands, any expression from its base and exponent, and from all that is met in
it when a substitution that replaces expressions by themselves looks for what is listed. -/
theorem rebuilt_of_canonical {e : Expr} (canonical : e.Canonical) {map : Substitution Expr}
    (identity : map.IsIdentity) :
    (∀ constant terms, e = sum constant terms → sumOf e.operands = e) ∧
    (∀ q factors, e = product q factors → (productOf e.operands : Except Error Expr) = .ok e) ∧
    (powerOf e.toFactor.1 e.toFactor.2 : Except Error Expr) = .ok e ∧
    (substitute map e : Except Error Expr) = .ok e := by
  refine ⟨?_, ?_, powerOf_toFactor canonical, substitute_of_identity identity canonical⟩
  · rintro constant terms rfl
    exact sumOf_operands canonical
  · rintro q factors rfl
    exact productOf_operands canonical

/-- The product `2*x*sqrt(x + 1)`. -/
def scaledRoot : Expr :=
  product 2 [(symbol "x", number 1), (sum 1 [(symbol "x", 1)], number (1 / 2))]

theorem canonical_scaledRoot : scaledRoot.Canonical := by
  have root : (power (sum 1 [(symbol "x", 1)]) (number (1 / 2))).Canonical :=
    canonical_powerOf (b := sum 1 [(symbol "x", 1)]) (e := number (1 / 2)) (by cbv)
      (canonical_successor "x") (canonical_number _)
  exact @canonical_productOf [number 2, symbol "x", power _ _] _ (by cbv)
    (List.forall_mem_cons.mpr ⟨canonical_number 2, canonical_pair (.symbol "x") root⟩)

/-- With `2`, `1` and `x*sqrt(x + 1)` listed, `2*x*sqrt(x + 1)` is put together from `2` and the
rest, and `x*sqrt(x + 1)` and `x + 1` from what the root and the number one come back as. -/
theorem rebuilt_of_canonical_root :
    (productOf scaledRoot.operands : Except Error Expr) = .ok scaledRoot ∧
      (substitute [(number 2, number 2), (number 1, number 1),
        (product 1 [(symbol "x", number 1), (sum 1 [(symbol "x", 1)], number (1 / 2))],
          product 1 [(symbol "x", number 1), (sum 1 [(symbol "x", 1)], number (1 / 2))])]
        scaledRoot : Except Error Expr) = .ok scaledRoot := by
  have rebuilt := @rebuilt_of_canonical _ canonical_scaledRoot
    [(number 2, number 2), (number 1, number 1),
      (product 1 [(symbol "x", number 1), (sum 1 [(symbol "x", 1)], number (1 / 2))],
        product 1 [(symbol "x", number 1), (sum 1 [(symbol "x", 1)], number (1 / 2))])]
    (by simp [Substitution.IsIdentity])
  exact ⟨rebuilt.2.1 2 _ rfl, rebuilt.2.2.2⟩

end SymbolicAlgebra
