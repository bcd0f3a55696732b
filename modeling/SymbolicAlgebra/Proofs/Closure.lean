import SymbolicAlgebra.Proofs.ClosedClasses

namespace SymbolicAlgebra

open SymbolicAlgebra.Expr

theorem canonical_sineOf {a : Expr} (canonical : a.Canonical) : (sineOf a).Canonical := by
  unfold sineOf
  split
  · exact canonical_number 0
  · rename_i other
    exact .sin (fun zero => other (isNumber_iff.mpr zero)) canonical

theorem canonical_cosineOf {a : Expr} (canonical : a.Canonical) : (cosineOf a).Canonical := by
  unfold cosineOf
  split
  · exact canonical_number 1
  · rename_i other
    exact .cos (fun zero => other (isNumber_iff.mpr zero)) canonical

theorem canonical_absoluteTerm {e : Expr} (canonical : e.Canonical) :
    (absoluteTerm e).Canonical := by
  unfold absoluteTerm
  split
  · split
    · exact canonical
    · exact .apply canonical
  · exact .apply canonical

theorem canonical_absolute {e : Expr} (canonical : e.Canonical) : (absolute e).Canonical := by
  unfold absolute
  split
  · exact canonical_number _
  · rename_i q factors
    obtain ⟨_, _, kept⟩ := canonical_product_iff.mp canonical
    split
    · exact canonical_absoluteTerm canonical
    · exact (canonical_absoluteTerm (kept.canonical_withCoefficient 1)).scale _
  · exact canonical_absoluteTerm canonical

theorem canonical_summed {summands : List Expr} {r : Expr}
    (found : (summed summands : Except Error Expr) = .ok r)
    (canonical : ∀ e ∈ summands, e.Canonical) : r.Canonical := by
  cases found
  exact canonical_sumOf canonical

theorem canonical_operands {e : Expr} (canonical : e.Canonical) :
    ∀ operand ∈ e.operands, operand.Canonical := by
  intro operand member
  cases canonical with
  | number form => cases member
  | symbol name => cases member
  | @sum constant terms form each =>
    rcases List.mem_append.mp member with member | member
    · obtain ⟨⟨t, q⟩, inside, rfl⟩ := List.mem_map.mp member
      exact (each t q inside).scale q
    · split at member
      · cases member
      · cases List.mem_singleton.mp member
        exact canonical_number _
  | @product coefficient factors form bases exponents =>
    rcases List.mem_append.mp member with member | member
    · split at member
      · cases member
      · cases List.mem_singleton.mp member
        exact canonical_number _
    · exact canonical_partsOf form.factor bases exponents operand member
  | power form base exponent =>
    rcases List.mem_cons.mp member with rfl | member
    · exact base
    · cases List.mem_singleton.mp member
      exact exponent
  | sin form argument =>
    cases List.mem_singleton.mp member
    exact argument
  | cos form argument =>
    cases List.mem_singleton.mp member
    exact argument
  | apply argument =>
    cases List.mem_singleton.mp member
    exact argument
  | derivative form target =>
    cases List.mem_singleton.mp member
    exact target

theorem canonical_parts {e : Expr} (canonical : e.Canonical) :
    ∀ part ∈ e.parts, part.Canonical := by
  intro part member
  cases canonical with
  | @sum constant terms form each =>
    rcases List.mem_append.mp member with member | member
    · obtain ⟨⟨t, q⟩, inside, rfl⟩ := List.mem_map.mp member
      exact each t q inside
    · cases List.mem_singleton.mp member
      exact canonical_number _
  | @product coefficient factors form bases exponents =>
    rcases List.mem_append.mp member with member | member
    · obtain ⟨⟨b, x⟩, inside, either⟩ := List.mem_flatMap.mp member
      rcases List.mem_pair.mp either with rfl | rfl
      · exact bases _ x inside
      · exact exponents b _ inside
    · cases List.mem_singleton.mp member
      exact canonical_number _
  | number form => cases member
  | symbol name => cases member
  | power form base exponent => exact canonical_pair base exponent part member
  | sin form argument | cos form argument | apply argument | derivative form argument =>
    cases List.mem_singleton.mp member
    exact argument

theorem closedClass_canonical : ClosedClass Canonical where
  number := canonical_number
  multiple q canonical := canonical.scale q
  sum := canonical_sumOf
  product := canonical_productOf
  power := canonical_powerOf
  sine := canonical_sineOf
  cosine := canonical_cosineOf
  application _ argument := .apply argument
  derivative form _ target := .derivative form target
  listed canonical := by
    cases canonical with
    | derivative form target => exact ⟨form, fun name _ => .symbol name⟩
  part := canonical_parts
  operand := canonical_operands

/-- Derivatives of canonical expressions are canonical. -/
theorem canonical_derivativeBy {x : String} {e r : Expr}
    (found : (derivativeBy x e : Except Error Expr) = .ok r) (canonical : e.Canonical) :
    r.Canonical :=
  closedClass_canonical.of_derivativeBy (.symbol x) found canonical

theorem canonical_summandsOf {e : Expr} (canonical : e.Canonical) :
    ∀ summand ∈ summandsOf e, summand.Canonical :=
  closedClass_canonical.of_summandsOf canonical

theorem canonical_distribute {a b r : Expr}
    (found : (distribute a b : Except Error Expr) = .ok r) (left : a.Canonical)
    (right : b.Canonical) : r.Canonical :=
  closedClass_canonical.of_distribute found left right

/-- Expansions of canonical expressions are canonical. -/
theorem canonical_expand {e r : Expr} (found : (expand e : Except Error Expr) = .ok r)
    (canonical : e.Canonical) : r.Canonical :=
  closedClass_canonical.of_expand found canonical

/-- Every replacement of the substitution is canonical. -/
def Substitution.Canonical (map : Substitution Expr) : Prop :=
  ∀ pair ∈ map, pair.2.Canonical

theorem Substitution.Canonical.find {map : Substitution Expr} (canonical : map.Canonical)
    {e r : Expr} (found : map.find e = some r) : r.Canonical :=
  canonical (e, r) (mem_of_find found)

/-- Replacing parts of canonical expressions by canonical ones gives canonical expressions. -/
theorem canonical_substitute {map : Substitution Expr} (replacements : map.Canonical) {e r : Expr}
    (found : (substitute map e : Except Error Expr) = .ok r) (canonical : e.Canonical) :
    r.Canonical :=
  closedClass_canonical.of_substitute (fun _ _ listed => replacements.find listed) found canonical

end SymbolicAlgebra
