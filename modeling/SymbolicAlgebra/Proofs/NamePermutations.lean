import SymbolicAlgebra.Proofs.Rebuilding
import SymbolicAlgebra.Proofs.RenamedDerivatives

namespace SymbolicAlgebra

open SymbolicAlgebra.Expr

/-- The listed symbols are replaced by symbols, each by the one that `σ` gives for its name, and `σ`
keeps the names that are not listed. -/
structure Substitution.Renames (map : Substitution Expr) (σ : String → String) : Prop where
  symbols : map.OnlySymbols
  values : map.Canonical
  find : ∀ name, (map.find (symbol name)).getD (symbol name) = symbol (σ name)

section Renames

variable {map : Substitution Expr} {σ : Equiv.Perm String} (renames : map.Renames σ)

include renames

theorem rename_of_renames (name : String) :
    (rename map name : Except Error String) = .ok (σ name) := by
  have found := renames.find name
  unfold rename
  cases listed : map.find (symbol name) with
  | none =>
    rw [listed] at found
    exact congrArg Except.ok (symbol.inj found)
  | some r =>
    rw [listed] at found
    obtain rfl : r = symbol (σ name) := found
    rfl

theorem substitute_symbol_of_renames (name : String) :
    (substitute map (symbol name) : Except Error Expr) = .ok (symbol (σ name)) := by
  rw [← renames.find name]
  cases listed : map.find (symbol name) with
  | none =>
    rw [substitute_eq, rewrite_symbol listed]
    rfl
  | some r => exact substitute_of_find listed

/-- To substitute symbols for symbols changes the names, all at once and everywhere. -/
theorem substitute_of_renames : ∀ {e : Expr}, e.Canonical →
    (substitute map e : Except Error Expr) = .ok (e.renamed σ)
  | _, .number form => substitute_number_of_onlySymbols renames.symbols _
  | _, .symbol name => substitute_symbol_of_renames renames name
  | .sum constant terms, .sum form each => by
    have canonical := Canonical.sum form each
    have operand : ∀ o ∈ (Expr.sum constant terms).operands,
        (substitute map o : Except Error Expr) = .ok (o.renamed σ) := fun o member =>
      substitute_of_renames (canonical_operands canonical o member)
    rw [substitute_sum canonical (renames.symbols.find_eq_none (by simp)), mapM_eq_ok_map operand]
    refine congrArg Except.ok ?_
    rw [← renamed_sumOf (canonical_operands canonical), sumOf_operands canonical]
  | .product q factors, .product form bases exponents => by
    have canonical := Canonical.product form bases exponents
    obtain ⟨nonzero, not_lone, kept⟩ := canonical_product_iff.mp canonical
    have whole := withCoefficient_eq_product nonzero kept.nonempty not_lone
    have part : ∀ part ∈ partsOf factors,
        (substitute map part : Except Error Expr) = .ok (part.renamed σ) := fun part member =>
      substitute_of_renames (kept.canonical_partsOf part member)
    have stored : (productOf (number q :: partsOf factors) : Except Error Expr) =
        .ok (Expr.product q factors) := by
      rw [productOf_number_partsOf nonzero kept.increasing kept.factor,
        assembleProduct_eq_withCoefficient kept nonzero, whole]
    have product := (productOf_eq_ok_iff.mp stored).renamed (σ := σ)
      (List.forall_mem_cons.mpr ⟨canonical_number q, kept.canonical_partsOf⟩)
    rw [← whole, substitute_withCoefficient renames.symbols renames.values kept nonzero,
      mapM_eq_ok_map part, whole]
    exact product
  | .power b e, .power form base exponent => by
    rw [substitute_power form (renames.symbols.find_eq_none (by simp)), substitute_of_renames base,
      substitute_of_renames exponent]
    exact powerOf_of_canonicalPower (CanonicalPower.renamed form)
  | .sin a, .sin form argument => by
    have built : sineOf a = Expr.sin a := if_neg (mt isNumber_iff.mp form)
    rw [substitute_argument (rewrite_sin (renames.symbols.find_eq_none (by simp))) built
      (substitute_of_renames argument), ← sineOf_renamed, built]
  | .cos a, .cos form argument => by
    have built : cosineOf a = Expr.cos a := if_neg (mt isNumber_iff.mp form)
    rw [substitute_argument (rewrite_cos (renames.symbols.find_eq_none (by simp))) built
      (substitute_of_renames argument), ← cosineOf_renamed, built]
  | .apply name a, .apply argument =>
    substitute_argument (f := Expr.apply name)
      (rewrite_apply (renames.symbols.find_eq_none (by simp))) rfl (substitute_of_renames argument)
  | .derivative a names, .derivative form target =>
    substitute_derivative (renames.symbols.find_eq_none (by simp))
      (mapM_eq_ok_map fun name _ => rename_of_renames renames name) (substitute_of_renames target)
termination_by e => e.size
decreasing_by
  · exact size_operand_lt member
  · have := size_part_lt member
    simp only [size]
    omega
  all_goals
    simp only [size]
    omega

end Renames

/-- Finitely many symbols are permuted: symbols are listed with symbols that are listed as well, and
no two of them with the same one. -/
structure Substitution.Permutes (map : Substitution Expr) : Prop where
  symbols : ∀ pair ∈ map, ∃ name other, pair = (symbol name, symbol other)
  listed : ∀ e r, map.find e = some r → map.HasKey r
  injective : ∀ e f r, map.find e = some r → map.find f = some r → e = f

/-- The name of what a symbol is replaced by; its own if it is not listed. -/
def Substitution.nameFor (map : Substitution Expr) (name : String) : String :=
  ((map.find (symbol name)).bind symbol?).getD name

namespace Substitution.Permutes

variable {map : Substitution Expr} (permutes : map.Permutes)

include permutes

theorem find_listed {name : String} (listed : map.HasKey (symbol name)) :
    map.find (symbol name) = some (symbol (map.nameFor name)) := by
  cases found : map.find (symbol name) with
  | none => exact absurd listed (find_eq_none_iff.mp found)
  | some r =>
    obtain ⟨_, other, same⟩ := permutes.symbols (symbol name, r) (mem_of_find found)
    obtain rfl : r = symbol other := congrArg Prod.snd same
    rw [nameFor, found]
    rfl

omit permutes in
theorem nameFor_unlisted {name : String} (unlisted : ¬ map.HasKey (symbol name)) :
    map.nameFor name = name := by
  rw [nameFor, find_eq_none_iff.mpr unlisted]
  rfl

theorem nameFor_listed {name : String} (listed : map.HasKey (symbol name)) :
    map.HasKey (symbol (map.nameFor name)) :=
  permutes.listed _ _ (permutes.find_listed listed)

/-- The listed names are finitely many, so that none is left out where no two become the same. -/
theorem bijOn_nameFor : Set.BijOn map.nameFor {name | map.HasKey (symbol name)}
    {name | map.HasKey (symbol name)} := by
  have finite : {name | map.HasKey (symbol name)}.Finite :=
    ((List.finite_toSet (map.map Prod.fst)).preimage
      fun _ _ _ _ same => symbol.inj same).subset fun name listed => List.mem_map.mpr listed
  refine (finite.injOn_iff_bijOn_of_mapsTo fun name => permutes.nameFor_listed).mp ?_
  intro name listed other listed' same
  have found := permutes.find_listed listed
  rw [same] at found
  exact symbol.inj (permutes.injective _ _ _ found (permutes.find_listed listed'))

theorem injective_nameFor : Function.Injective map.nameFor := by
  intro name other same
  by_cases listed : map.HasKey (symbol name) <;> by_cases listed' : map.HasKey (symbol other)
  · exact permutes.bijOn_nameFor.injOn listed listed' same
  · rw [nameFor_unlisted listed'] at same
    exact absurd (same ▸ permutes.nameFor_listed listed) listed'
  · rw [nameFor_unlisted listed] at same
    exact absurd (same ▸ permutes.nameFor_listed listed') listed
  · rwa [nameFor_unlisted listed, nameFor_unlisted listed'] at same

theorem surjective_nameFor : Function.Surjective map.nameFor := by
  intro name
  by_cases listed : map.HasKey (symbol name)
  · obtain ⟨source, _, rfl⟩ := permutes.bijOn_nameFor.surjOn listed
    exact ⟨source, rfl⟩
  · exact ⟨name, nameFor_unlisted listed⟩

theorem exists_renames : ∃ σ : Equiv.Perm String, map.Renames σ := by
  have bijective : Function.Bijective map.nameFor :=
    ⟨permutes.injective_nameFor, permutes.surjective_nameFor⟩
  refine ⟨Equiv.ofBijective map.nameFor bijective, fun pair member => ?_, fun pair member => ?_,
    fun name => ?_⟩
  · obtain ⟨name, other, rfl⟩ := permutes.symbols pair member
    exact ⟨name, rfl⟩
  · obtain ⟨name, other, rfl⟩ := permutes.symbols pair member
    exact .symbol other
  · by_cases listed : map.HasKey (symbol name)
    · rw [permutes.find_listed listed]
      rfl
    · rw [Equiv.ofBijective_apply, nameFor_unlisted listed, find_eq_none_iff.mpr listed]
      rfl

end Substitution.Permutes

/-- Two outcomes are the same up to the substitution: there is a result on both sides or on neither,
and the second result is what the first becomes. -/
structure Substitution.Relates (map : Substitution Expr) (first second : Except Error Expr) :
    Prop where
  succeeds_iff : (∃ r, first = .ok r) ↔ ∃ r, second = .ok r
  result : ∀ r r', first = .ok r → second = .ok r' →
    (substitute map r : Except Error Expr) = .ok r'

section Equivariance

variable {map : Substitution Expr} {σ : Equiv.Perm String} (renames : map.Renames σ)

include renames

/-- An operation that can be carried to other names and back gives related results. -/
theorem Substitution.Renames.relates {first second : Except Error Expr}
    (canonical : ∀ r, first = .ok r → r.Canonical)
    (there : ∀ r, first = .ok r → second = .ok (r.renamed σ))
    (back : ∀ r, second = .ok r → first = .ok (r.renamed σ.symm)) :
    map.Relates first second where
  succeeds_iff := ⟨fun ⟨r, found⟩ => ⟨_, there r found⟩, fun ⟨r, found⟩ => ⟨_, back r found⟩⟩
  result r r' found found' := by
    rw [substitute_of_renames renames (canonical r found)]
    exact (there r found).symm.trans found'

theorem relates_productOf {operands : List Expr} (canonical : ∀ e ∈ operands, e.Canonical) :
    map.Relates (productOf operands) (productOf (operands.map (renamed σ))) := by
  have same : (operands.map (renamed σ)).map (renamed σ.symm) = operands :=
    map_map_cancel fun e member => renamed_symm σ (canonical e member)
  refine renames.relates (fun r found => canonical_productOf found canonical) (fun r found => ?_)
    fun r found => ?_
  · exact (productOf_eq_ok_iff.mp found).renamed canonical
  · have carried := (productOf_eq_ok_iff.mp found).renamed (σ := σ.symm)
      (canonical_map_renamed canonical)
    rwa [same] at carried

theorem relates_powerOf {b e : Expr} (base : b.Canonical) (exponent : e.Canonical) :
    map.Relates (powerOf b e) (powerOf (b.renamed σ) (e.renamed σ)) := by
  refine renames.relates (fun r found => canonical_powerOf found base exponent) (fun r found => ?_)
    fun r found => ?_
  · exact (powerOf_eq_ok_iff.mp found).renamed base exponent
  · have carried := (powerOf_eq_ok_iff.mp found).renamed (σ := σ.symm) (canonical_renamed base)
      (canonical_renamed exponent)
    rwa [renamed_symm σ base, renamed_symm σ exponent] at carried

theorem relates_derivativeBy {x : String} {e : Expr} (canonical : e.Canonical) :
    map.Relates (derivativeBy x e) (derivativeBy (σ x) (e.renamed σ)) := by
  refine renames.relates (fun r found => canonical_derivativeBy found canonical)
    (derivesRenamed canonical) fun r found => ?_
  have carried := derivesRenamed (σ := σ.symm) (canonical_renamed canonical) r found
  rwa [renamed_symm σ canonical, σ.symm_apply_apply] at carried

omit renames in
/-- An expression is differentiated by the name of a symbol, and by nothing else. -/
theorem differentiate_eq (e x : Expr) : (differentiate e x : Except Error Expr) =
    match x.symbol? with
    | some name => derivativeBy name e
    | none => .error (.notASymbol x.inputForm) := by
  unfold differentiate variableName
  cases x.symbol? <;> rfl

theorem relates_differentiate {e x : Expr} (canonical : e.Canonical) :
    map.Relates (differentiate e x) (differentiate (e.renamed σ) (x.renamed σ)) := by
  rw [differentiate_eq, differentiate_eq, symbol?_renamed]
  cases x.symbol? with
  | some name => exact relates_derivativeBy renames canonical
  | none =>
    exact ⟨⟨fun ⟨_, found⟩ => (by cases found), fun ⟨_, found⟩ => (by cases found)⟩,
      fun _ _ found => by cases found⟩

end Equivariance

/-- Names do not matter. If symbols are permuted, every expression can be substituted in, and what is
added, multiplied, raised or differentiated may be substituted in before or after. -/
theorem equivariant_of_permutes {map : Substitution Expr} (permutes : map.Permutes) :
    (∀ e, e.Canonical → ∃ e', (substitute map e : Except Error Expr) = .ok e') ∧
    (∀ es es', (∀ e ∈ es, e.Canonical) →
      (es.mapM (substitute map) : Except Error (List Expr)) = .ok es' →
      (substitute map (sumOf es) : Except Error Expr) = .ok (sumOf es') ∧
        map.Relates (productOf es) (productOf es')) ∧
    ∀ a b a' b', a.Canonical → b.Canonical →
      (substitute map a : Except Error Expr) = .ok a' →
      (substitute map b : Except Error Expr) = .ok b' →
      map.Relates (powerOf a b) (powerOf a' b') ∧
        map.Relates (differentiate a b) (differentiate a' b') := by
  obtain ⟨σ, renames⟩ := permutes.exists_renames
  refine ⟨fun e canonical => ⟨_, substitute_of_renames renames canonical⟩,
    fun es es' canonical found => ?_, fun a b a' b' left right found found' => ?_⟩
  · rw [mapM_eq_ok_map fun e member => substitute_of_renames renames (canonical e member)] at found
    obtain rfl := Except.ok.inj found
    refine ⟨?_, relates_productOf renames canonical⟩
    rw [substitute_of_renames renames (canonical_sumOf canonical), renamed_sumOf canonical]
  · rw [substitute_of_renames renames left] at found
    rw [substitute_of_renames renames right] at found'
    obtain rfl := Except.ok.inj found
    obtain rfl := Except.ok.inj found'
    exact ⟨relates_powerOf renames left right, relates_differentiate renames left⟩

/-- The substitution of `y`, `z` and `x` for `x`, `y` and `z`. -/
def nameCycle : Substitution Expr :=
  [(symbol "x", symbol "y"), (symbol "y", symbol "z"), (symbol "z", symbol "x")]

theorem permutes_nameCycle : nameCycle.Permutes := by
  have pairs {e r : Expr} (listed : nameCycle.find e = some r) : e = symbol "x" ∧ r = symbol "y" ∨
      e = symbol "y" ∧ r = symbol "z" ∨ e = symbol "z" ∧ r = symbol "x" := by
    simpa [nameCycle] using Substitution.mem_of_find listed
  refine ⟨fun pair member => ?_, fun e r listed => ?_, fun e f r listed other => ?_⟩
  · simp only [nameCycle, List.mem_cons, List.not_mem_nil, or_false] at member
    rcases member with rfl | rfl | rfl <;> exact ⟨_, _, rfl⟩
  · rcases pairs listed with ⟨_, rfl⟩ | ⟨_, rfl⟩ | ⟨_, rfl⟩ <;>
      simp [Substitution.HasKey, nameCycle]
  · rcases pairs listed with ⟨rfl, rfl⟩ | ⟨rfl, rfl⟩ | ⟨rfl, rfl⟩ <;>
      exact (by simpa using pairs other : f = _).symm

/-- The derivative of `y*z**2` by `z` becomes that of `x**2*z` by `x`, with its factors in another
order. -/
theorem equivariant_of_permutes_cycle :
    (differentiate (product 1 [(symbol "y", number 1), (symbol "z", number 2)]) (symbol "z") :
        Except Error Expr) = .ok (product 2 [(symbol "y", number 1), (symbol "z", number 1)]) ∧
      (differentiate (product 1 [(symbol "x", number 2), (symbol "z", number 1)]) (symbol "x") :
        Except Error Expr) = .ok (product 2 [(symbol "x", number 1), (symbol "z", number 1)]) ∧
      (substitute nameCycle (product 2 [(symbol "y", number 1), (symbol "z", number 1)]) :
        Except Error Expr) = .ok (product 2 [(symbol "x", number 1), (symbol "z", number 1)]) := by
  have square : (power (symbol "z") (number 2)).Canonical :=
    @canonical_powerOf (symbol "z") (number 2) _ (by cbv) (.symbol "z") (canonical_number 2)
  have whole : (product 1 [(symbol "y", number 1), (symbol "z", number 2)]).Canonical :=
    @canonical_productOf [symbol "y", power (symbol "z") (number 2)] _ (by cbv)
      (canonical_pair (.symbol "y") square)
  have becomes : (substitute nameCycle (product 1 [(symbol "y", number 1),
      (symbol "z", number 2)]) : Except Error Expr) =
        .ok (product 1 [(symbol "x", number 2), (symbol "z", number 1)]) := by cbv
  have variable_becomes : (substitute nameCycle (symbol "z") : Except Error Expr) =
      .ok (symbol "x") := by cbv
  have before : (differentiate (product 1 [(symbol "y", number 1), (symbol "z", number 2)])
      (symbol "z") : Except Error Expr) =
        .ok (product 2 [(symbol "y", number 1), (symbol "z", number 1)]) := by cbv
  have after : (differentiate (product 1 [(symbol "x", number 2), (symbol "z", number 1)])
      (symbol "x") : Except Error Expr) =
        .ok (product 2 [(symbol "x", number 1), (symbol "z", number 1)]) := by cbv
  have related := ((equivariant_of_permutes permutes_nameCycle).2.2 _ _ _ _ whole (.symbol "z")
    becomes variable_becomes).2
  exact ⟨before, after, related.result _ _ before after⟩

end SymbolicAlgebra
