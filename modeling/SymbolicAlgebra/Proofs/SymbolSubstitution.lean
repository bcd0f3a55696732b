import SymbolicAlgebra.Proofs.Grouping
import SymbolicAlgebra.Proofs.SumSubstitution

namespace SymbolicAlgebra

open SymbolicAlgebra.Expr

/-- Nothing but symbols is replaced. -/
def Substitution.OnlySymbols (map : Substitution Expr) : Prop :=
  ∀ pair ∈ map, ∃ name, pair.1 = symbol name

/-- The coefficient of a product as one of its operands; one is none. -/
def coefficientOperands (q : Rat) : List Expr :=
  if q = 1 then [] else [number q]

theorem collectCoefficient_coefficientOperands (q : Rat) :
    collectCoefficient (coefficientOperands q) = q := by
  unfold coefficientOperands
  split
  · rename_i one
    exact one.symm
  · exact mul_one q

theorem factorParts_coefficientOperands (q : Rat) :
    (coefficientOperands q).flatMap factorPart = [] := by
  unfold coefficientOperands
  split <;> rfl

section Symbols

variable {map : Substitution Expr} (symbols : map.OnlySymbols)

include symbols

theorem Substitution.OnlySymbols.find_eq_none {e : Expr} (other : ∀ name, e ≠ symbol name) :
    map.find e = none := by
  rw [find_eq_none_iff]
  rintro ⟨pair, member, rfl⟩
  obtain ⟨name, same⟩ := symbols pair member
  exact other name same

theorem Substitution.OnlySymbols.sparesSums : map.SparesSums := by
  rintro constant terms ⟨pair, member, same⟩
  obtain ⟨name, key⟩ := symbols pair member
  rw [key] at same
  cases same

theorem rewrite_number_of_onlySymbols (q : Rat) :
    (rewrite map (number q) : Except Error (Option Expr)) = .ok none :=
  rewrite_number (symbols.find_eq_none (by simp))

theorem substitute_number_of_onlySymbols (q : Rat) :
    (substitute map (number q) : Except Error Expr) = .ok (number q) := by
  rw [substitute_number, symbols.find_eq_none (by simp)]
  rfl

/-- A factor is substituted as the expression that it stands for. -/
theorem value_rewriteFactor (factor : Factor) :
    Part.value <$> rewriteFactor map factor = substitute map (ofFactor factor) := by
  obtain ⟨b, e⟩ := factor
  cases listed : map.find (ofFactor (b, e)) with
  | some r =>
    rw [substitute_of_find listed, rewriteFactor, listed]
    rfl
  | none =>
    rw [rewriteFactor, listed, substitute_eq]
    dsimp only
    simp only [map_bind, Functor.map_map]
    by_cases one : e = number 1
    · -- The exponent of a bare factor is looked up as well, but no number is listed.
      have bare : ofFactor (b, e) = b := if_pos (isNumber_iff.mpr one)
      rw [bare, one, rewrite_number_of_onlySymbols symbols]
      cases (rewrite map b : Except Error (Option Expr)) with
      | error cause => rfl
      | ok after =>
        cases after with
        | none => rfl
        | some r =>
          have raised : (rebuildPair ⟨b, some r⟩ ⟨number 1, none⟩ powerOf :
              Except Error (Option Expr)) = .ok (some r) :=
            map_eq_ok_iff.mpr ⟨r, powerOf_one r, rfl⟩
          exact map_eq_ok_iff.mpr ⟨some r, raised, rfl⟩
    · have power : ofFactor (b, e) = power b e := if_neg (mt isNumber_iff.mp one)
      rw [power] at listed ⊢
      rw [rewrite_power listed]
      simp only [map_bind]
      rfl

omit symbols in
/-- Kept factors multiply to what they make up under the coefficient. -/
theorem productOf_partsOf {operands : List Expr} {q : Rat} {factors : List Factor}
    (kept : KeptFactors factors) (coefficient : collectCoefficient operands = q)
    (parts : operands.flatMap factorPart = factors) :
    (productOf operands : Except Error Expr) = .ok (withCoefficient q factors) := by
  have free : (withCoefficient 1 factors).coefficientPart = 1 :=
    kept.coefficientPart_withCoefficient one_ne_zero
  have scaled := productOf_eq_scale (kept.canonical_withCoefficient 1)
    (coefficient.trans (by rw [free, mul_one]))
    (parts.trans (kept.factorPart_withCoefficient one_ne_zero).symm)
  rwa [kept.scale_withCoefficient, mul_one] at scaled

omit symbols in
theorem productOf_coefficientOperands {factors : List Factor} (kept : KeptFactors factors)
    (q : Rat) : (productOf (coefficientOperands q ++ partsOf factors) : Except Error Expr) =
      .ok (withCoefficient q factors) := by
  refine productOf_partsOf kept ?_ ?_
  · rw [collectCoefficient_append, collectCoefficient_coefficientOperands,
      collectCoefficient_partsOf kept.factor, mul_one]
  · rw [List.flatMap_append, factorParts_coefficientOperands, List.nil_append,
      flatMap_factorPart_partsOf kept.factor]

omit symbols in
theorem before_numberParts (q : Rat) :
    (numberParts map 1 q).map Part.before = coefficientOperands q := by
  unfold numberParts coefficientOperands
  split <;> rfl

theorem value_numberParts (q : Rat) :
    (numberParts map 1 q).map Part.value = coefficientOperands q := by
  unfold numberParts coefficientOperands
  split
  · rfl
  · rw [List.map_singleton, symbols.find_eq_none (by simp)]
    rfl

/-- Without its coefficient a product is listed only if the rest of it is a symbol. -/
theorem substitute_product_of_rest {q : Rat} {factors : List Factor} {r : Expr}
    (kept : KeptFactors factors) (unlisted : map.find (product q factors) = none) (scaled : q ≠ 1)
    (listed : map.find (withCoefficient 1 factors) = some r) :
    (substitute map (product q factors) : Except Error Expr) = (do
      let rs ← (partsOf factors).mapM (substitute map)
      productOf (number q :: rs)) := by
  have rest : ∃ name, withCoefficient 1 factors = symbol name := by
    by_contra other
    rw [symbols.find_eq_none fun name same => other ⟨name, same⟩] at listed
    cases listed
  obtain ⟨name, rest⟩ := rest
  have lone : [(symbol name, number 1)] = factors := by
    rw [← kept.factorPart_withCoefficient one_ne_zero, rest]
    rfl
  have parts : partsOf factors = [symbol name] := by
    rw [← lone]
    rfl
  rw [substitute_eq, rewrite_product_of_rest unlisted scaled listed,
    symbols.find_eq_none (e := number q) (by simp), Functor.map_map, parts, List.mapM_cons,
    List.mapM_nil, substitute_of_find (rest ▸ listed)]
  exact id_map _

theorem substitute_product {q : Rat} {factors : List Factor} (kept : KeptFactors factors)
    (whole : withCoefficient q factors = product q factors)
    (unlisted : map.find (product q factors) = none)
    (rest : q ≠ 1 → map.find (withCoefficient 1 factors) = none) :
    (substitute map (product q factors) : Except Error Expr) = (do
      let rs ← (partsOf factors).mapM (substitute map)
      productOf (number q :: rs)) := by
  have values : (partsOf factors).mapM (substitute map) =
      List.map Part.value <$> factors.mapM (rewriteFactor map) := by
    rw [← mapM_map_result, partsOf, List.mapM_map]
    exact congrArg (List.mapM · factors)
      (funext fun factor => (value_rewriteFactor symbols factor).symm)
  rw [substitute_eq, rewrite_product unlisted rest, values]
  cases rewritten : factors.mapM (rewriteFactor map) with
  | error cause => rfl
  | ok parts =>
    have before : parts.map Part.before = partsOf factors :=
      map_eq_map_of_mapM rewritten fun factor _ part => before_rewriteFactor
    refine (getD_rebuild ?_).trans ?_
    · rw [← whole, List.map_append, before, before_numberParts]
      exact productOf_coefficientOperands kept q
    · rw [List.map_append, value_numberParts symbols]
      refine productOf_congr ?_ ?_
      · rw [collectCoefficient_append, collectCoefficient_coefficientOperands]
        rfl
      · rw [mergedFactors, collectFactors, List.flatMap_append, factorParts_coefficientOperands]
        rfl

/-- A product is substituted factor by factor, and the coefficient multiplied in. -/
theorem substitute_withCoefficient (values : map.Canonical) {q : Rat} {factors : List Factor}
    (kept : KeptFactors factors) (nonzero : q ≠ 0) :
    (substitute map (withCoefficient q factors) : Except Error Expr) = (do
      let rs ← (partsOf factors).mapM (substitute map)
      productOf (number q :: rs)) := by
  rcases kept.withCoefficient_cases nonzero with ⟨b, e, rfl, rfl, whole⟩ | ⟨_, whole⟩
  · have parts : partsOf [(b, e)] = [ofFactor (b, e)] := rfl
    have canonical := kept.canonical_partsOf (ofFactor (b, e)) (List.mem_singleton_self _)
    rw [whole, parts, List.mapM_cons, List.mapM_nil]
    cases found : (substitute map (ofFactor (b, e)) : Except Error Expr) with
    | error cause => rfl
    | ok r =>
      have alone := productOf_number 1 (canonical_substitute values found canonical)
      rw [scale_one] at alone
      exact alone.symm
  · have unlisted : map.find (product q factors) = none := symbols.find_eq_none (by simp)
    rw [whole]
    rcases map.rest_cases q (withCoefficient 1 factors) with ⟨scaled, r, listed⟩ | rest
    · exact substitute_product_of_rest symbols kept unlisted scaled listed
    · exact substitute_product symbols kept whole unlisted rest

theorem homogeneous_substitute (values : map.Canonical) : Homogeneous (substitute map) := by
  intro q p factors r kept nonzero zero found
  rw [substitute_withCoefficient symbols values kept nonzero] at found
  rw [substitute_withCoefficient symbols values kept (mul_ne_zero zero nonzero)]
  obtain ⟨rs, parts, found⟩ := bind_eq_ok_iff.mp found
  have canonical : ∀ e ∈ number q :: rs, e.Canonical := by
    refine List.forall_mem_cons.mpr ⟨canonical_number q, fun e member => ?_⟩
    obtain ⟨part, inside, result⟩ := exists_of_mem_mapM parts member
    exact canonical_substitute values result (kept.canonical_partsOf part inside)
  exact bind_eq_ok_iff.mpr
    ⟨rs, parts, (productOf_eq_ok_iff.mp found).scale canonical (mul_assoc ..) rfl⟩

/-- To substitute for symbols respects sums and multiples, and leaves numbers as they are. -/
theorem linear_substitute (values : map.Canonical) : Linear (substitute map) (number 1) := by
  refine (additive_substitute values symbols.sparesSums).linear (fun q => ?_)
    (homogeneous_substitute symbols values)
  rw [substitute_number_of_onlySymbols symbols, scale_number, mul_one]

end Symbols

/-- To substitute for symbols is linear: what can be substituted in may be added and multiplied with
a number before or after, whatever terms merge or cancel. -/
theorem substitute_linear {map : Substitution Expr} (symbols : map.OnlySymbols)
    (values : map.Canonical) {a b a' b' : Expr} (q : Rat) (left : a.Canonical)
    (right : b.Canonical) (found_left : (substitute map a : Except Error Expr) = .ok a')
    (found_right : (substitute map b : Except Error Expr) = .ok b') :
    (substitute map (sumOf [a, b]) : Except Error Expr) = .ok (sumOf [a', b']) ∧
      ∃ qa qa', (productOf [number q, a] : Except Error Expr) = .ok qa ∧
        (productOf [number q, a'] : Except Error Expr) = .ok qa' ∧
        (substitute map qa : Except Error Expr) = .ok qa' := by
  have linear := linear_substitute symbols values
  constructor
  · refine linear.sumOf (canonical_pair left right) (mapM_eq_ok_iff.mpr ?_)
    exact .cons found_left (.cons found_right .nil)
  · refine ⟨_, _, productOf_number q left,
      productOf_number q (linear.canonical found_left left), ?_⟩
    exact linear.scale left found_left q

/-- With `y + 1` for `x`, the products in the sum of `2*x*z + 3` and `x - 2*x*z` cancel before, and
half of `2*x*z + 3` becomes the sum `3/2 + z*(1 + y)`. -/
theorem substitute_linear_cancelling :
    (substitute [(symbol "x", sum 1 [(symbol "y", 1)])] (sum 3 [(symbol "x", 1)]) :
        Except Error Expr) = .ok (sum 4 [(symbol "y", 1)]) ∧
      ∃ qa qa', (productOf [number (1 / 2),
          sum 3 [(product 1 [(symbol "x", number 1), (symbol "z", number 1)], 2)]] :
            Except Error Expr) = .ok qa ∧
        (productOf [number (1 / 2),
          sum 3 [(product 1 [(symbol "z", number 1), (sum 1 [(symbol "y", 1)], number 1)], 2)]] :
            Except Error Expr) = .ok qa' ∧
        (substitute [(symbol "x", sum 1 [(symbol "y", 1)])] qa : Except Error Expr) = .ok qa' := by
  have twice : (product 2 [(symbol "x", number 1), (symbol "z", number 1)]).Canonical :=
    @canonical_productOf [number 2, symbol "x", symbol "z"] _ (by cbv)
      (List.forall_mem_cons.mpr ⟨canonical_number 2, canonical_pair (.symbol "x") (.symbol "z")⟩)
  have left : sumOf [number 3, product 2 [(symbol "x", number 1), (symbol "z", number 1)]] =
      sum 3 [(product 1 [(symbol "x", number 1), (symbol "z", number 1)], 2)] := by cbv
  have right : sumOf [(product 2 [(symbol "x", number 1), (symbol "z", number 1)]).scale (-1),
      symbol "x"] =
      sum 0 [(symbol "x", 1), (product 1 [(symbol "x", number 1), (symbol "z", number 1)], -2)] := by
    cbv
  have sums : sumOf [sum 3 [(product 1 [(symbol "x", number 1), (symbol "z", number 1)], 2)],
      sum 0 [(symbol "x", 1), (product 1 [(symbol "x", number 1), (symbol "z", number 1)], -2)]] =
      sum 3 [(symbol "x", 1)] := by cbv
  have results : sumOf
      [sum 3 [(product 1 [(symbol "z", number 1), (sum 1 [(symbol "y", 1)], number 1)], 2)],
      sum 1 [(symbol "y", 1),
        (product 1 [(symbol "z", number 1), (sum 1 [(symbol "y", 1)], number 1)], -2)]] =
      sum 4 [(symbol "y", 1)] := by cbv
  rw [← sums, ← results]
  refine substitute_linear ?_ ?_ (1 / 2) (left ▸ canonical_sumOf_pair (canonical_number 3) twice)
    (right ▸ canonical_sumOf_pair (twice.scale (-1)) (.symbol "x")) (by cbv) (by cbv)
  · intro pair member
    obtain rfl := List.mem_singleton.mp member
    exact ⟨"x", rfl⟩
  · intro pair member
    obtain rfl := List.mem_singleton.mp member
    exact canonical_successor "y"

end SymbolicAlgebra
