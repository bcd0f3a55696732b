import SymbolicAlgebra.Proofs.Closure
import SymbolicAlgebra.Proofs.Grouping
import SymbolicAlgebra.Proofs.TameBases

namespace SymbolicAlgebra

open SymbolicAlgebra.Expr

namespace Expr

/-- There is a formal derivative at some depth. -/
inductive HasDerivative : Expr → Prop where
  | node {a names} : HasDerivative (derivative a names)
  | within {e part} (stored : part ∈ e.parts) (deeper : HasDerivative part) : HasDerivative e

/-- Neither a number nor a sum, product or power. -/
def IsBare : Expr → Prop
  | symbol _ => True
  | sin _ => True
  | cos _ => True
  | apply _ _ => True
  | derivative _ _ => True
  | _ => False

theorem IsBare.factorPart {e : Expr} (bare : e.IsBare) : e.factorPart = [(e, number 1)] := by
  cases e with
  | number q => exact absurd bare id
  | sum constant terms => exact absurd bare id
  | product q factors => exact absurd bare id
  | power b x => exact absurd bare id
  | _ => rfl

theorem IsBare.not_raisesInside {e : Expr} (bare : e.IsBare) : ¬ e.raisesInside = true := by
  cases e with
  | number q => exact absurd bare id
  | product q factors => exact absurd bare id
  | power b x => exact absurd bare id
  | _ => exact Bool.false_ne_true

theorem sineOf_cases (a : Expr) : (∃ q, sineOf a = number q) ∨ (sineOf a).IsBare := by
  unfold sineOf
  split
  · exact .inl ⟨0, rfl⟩
  · exact .inr trivial

theorem cosineOf_cases (a : Expr) : (∃ q, cosineOf a = number q) ∨ (cosineOf a).IsBare := by
  unfold cosineOf
  split
  · exact .inl ⟨1, rfl⟩
  · exact .inr trivial

end Expr

/-- The replacements are canonical and equal in value to what they replace, and no base in them is
zero. -/
structure Substitution.Equates {K : Type*} [Field K] (map : Substitution Expr)
    (I : Interpretation K) : Prop where
  canonical : ∀ e r, map.find e = some r → r.Canonical
  value : ∀ e r, map.find e = some r → I.value r = I.value e
  bases : ∀ e r, map.find e = some r → I.NonzeroBases r

section Rewriting

variable {K : Type*} [Field K] {I : Interpretation K} {map : Substitution Expr}

theorem Substitution.Equates.replaces (equates : map.Equates I) {e r : Expr}
    (listed : map.find e = some r) : I.Replaces e r :=
  ⟨equates.canonical e r listed, equates.value e r listed,
    (equates.bases e r listed).tame.tameTerms⟩

/-- Whatever the expression is rewritten to can take its place. -/
def Substitution.Keeps (map : Substitution Expr) (I : Interpretation K) (e : Expr) : Prop :=
  ∀ after, (rewrite map e : Except Error (Option Expr)) = .ok after →
    I.Replaces e (Part.mk e after).value

theorem Substitution.Equates.keeps (equates : map.Equates I) {e r : Expr}
    (listed : map.find e = some r) : map.Keeps I e := by
  intro after found
  rw [rewrite_of_find listed] at found
  cases found
  have replaces := equates.replaces listed
  split
  · rename_i same
    rwa [← same] at replaces
  · exact replaces

theorem Substitution.Equates.replaces_lookup (equates : map.Equates I) {e : Expr}
    (whole : I.Replaces e e) : I.Replaces e (Part.mk e (map.find e)).value := by
  cases listed : map.find e with
  | none => exact whole
  | some r => exact equates.replaces listed

theorem replaces_number (q : Rat) : I.Replaces (number q) (number q) :=
  ⟨canonical_number q, rfl, (Interpretation.Tame.number q).tameTerms⟩

theorem keeps_number (equates : map.Equates I) (q : Rat) : map.Keeps I (number q) := by
  cases listed : map.find (number q) with
  | none =>
    intro after found
    rw [rewrite_number listed] at found
    cases found
    exact replaces_number q
  | some r => exact equates.keeps listed

theorem keeps_of_rebuild {e : Expr} {parts : List (Part Expr)}
    {build : List Expr → Except Error Expr} (whole : I.Replaces e e)
    (built : ∀ r, build (parts.map Part.value) = .ok r → I.Replaces e r)
    {after : Option Expr} (found : rebuild parts build = .ok after) :
    I.Replaces e (Part.mk e after).value := by
  cases after with
  | none => exact whole
  | some r => exact built r (rebuild_eq_some found)

theorem sum_numberParts (map : Substitution Expr) (constant : Rat) :
    ((numberParts map 0 constant).map fun part => I.value part.before).sum = constant := by
  unfold numberParts
  split
  · rename_i zero
    rw [zero, Rat.cast_zero]
    rfl
  · rw [List.map_singleton, List.sum_singleton, I.value_number]

theorem prod_numberParts (map : Substitution Expr) (coefficient : Rat) :
    ((numberParts map 1 coefficient).map fun part => I.value part.before).prod =
      coefficient := by
  unfold numberParts
  split
  · rename_i one
    rw [one, Rat.cast_one]
    rfl
  · rw [List.map_singleton, List.prod_singleton, I.value_number]

variable [CharZero K]

theorem replaces_coefficient (equates : map.Equates I) {q : Rat} (nonzero : q ≠ 0) :
    I.ReplacesFactor (number q) (Part.mk (number q) (map.find (number q))).value := by
  refine ⟨equates.replaces_lookup (replaces_number q), ?_⟩
  rw [I.value_number]
  exact Rat.cast_ne_zero.mpr nonzero

variable (laws : PowerLaws I.pow)

include laws

theorem keeps_sum (equates : map.Equates I) {constant : Rat} {terms : List Multiple}
    (whole : I.Replaces (sum constant terms) (sum constant terms))
    (unlisted : map.find (sum constant terms) = none)
    (each : ∀ t q, (t, q) ∈ terms → map.Keeps I (t.scale q)) :
    map.Keeps I (sum constant terms) := by
  intro after found
  rw [rewrite_sum unlisted] at found
  obtain ⟨parts, rewritten, found⟩ := bind_eq_ok_iff.mp found
  refine keeps_of_rebuild whole (fun r built => ?_) found
  cases built
  refine Interpretation.replaces_sumOf laws.exponent_one
    (List.forall_mem_append.mpr ⟨fun part member => ?_, fun part member => ?_⟩) ?_
  · obtain ⟨⟨t, q⟩, stored, result⟩ := exists_of_mem_mapM rewritten member
    obtain ⟨after, changed, rfl⟩ := map_eq_ok_iff.mp result
    exact each t q stored after changed
  · obtain ⟨_, rfl⟩ := of_mem_numberParts member
    exact equates.replaces_lookup (replaces_number constant)
  · have values : (parts.map fun part => I.value part.before) =
        terms.map fun multiple => (multiple.2 : K) * I.value multiple.1 := by
      refine map_eq_map_of_mapM rewritten fun multiple _ part result => ?_
      obtain ⟨after, _, rfl⟩ := map_eq_ok_iff.mp result
      exact I.value_scale laws.exponent_one multiple.2 multiple.1
    rw [List.map_append, List.sum_append, values, sum_numberParts, I.value_sum, add_comm]
    rfl

/-- A factor that can be raised goes over into one of the same value. -/
theorem replaces_rewriteFactor (equates : map.Equates I) {b x : Expr}
    (factor : CanonicalFactor b x) (base : I.TameBase b) (canonical_base : b.Canonical)
    (canonical_exponent : x.Canonical)
    (keeps_base : map.Keeps I b) (keeps_exponent : map.Keeps I x) {part : Part Expr}
    (found : rewriteFactor map (b, x) = .ok part) :
    I.ReplacesFactor part.before part.value := by
  have value := I.value_ofFactor laws.exponent_one b x
  have nonzero : I.value (ofFactor (b, x)) ≠ 0 := by
    rw [value]
    exact laws.ne_zero base.nonzero _
  rcases rewriteFactor_cases found with ⟨r, listed, rfl⟩ |
    ⟨base', exponent', after, changed_base, changed_exponent, rebuilt, rfl⟩
  · exact ⟨equates.replaces listed, nonzero⟩
  · refine ⟨?_, nonzero⟩
    cases after with
    | none =>
      refine Interpretation.replaces_of_factorPart
        (canonical_ofFactor factor canonical_base canonical_exponent) rfl ?_
      have part : Part.value ⟨ofFactor (b, x), none⟩ = ofFactor (b, x) := rfl
      rw [part, factorPart_ofFactor factor]
      exact .singleton base x
    | some r =>
      exact Interpretation.replaces_powerOf laws ⟨keeps_base _ changed_base, base.nonzero⟩
        (keeps_exponent _ changed_exponent) value (rebuildPair_eq_some rebuilt)

/-- A product without its coefficient, which is replaced as a whole. -/
theorem keeps_product_of_rest (equates : map.Equates I) {q : Rat} {factors : List Factor}
    {replacement : Expr} (every : EveryBase I.TameBase factors) (nonzero : q ≠ 0) (scaled : q ≠ 1)
    (unlisted : map.find (product q factors) = none)
    (listed : map.find (withCoefficient 1 factors) = some replacement) :
    map.Keeps I (product q factors) := by
  intro after found
  rw [rewrite_product_of_rest unlisted scaled listed] at found
  obtain ⟨r, product, rfl⟩ := map_eq_ok_iff.mp found
  have rest : I.value (withCoefficient 1 factors) = I.valueOfFactors factors := by
    rw [I.value_withCoefficient laws.exponent_one, Rat.cast_one, one_mul]
  have rest_nonzero : I.value (withCoefficient 1 factors) ≠ 0 := by
    rw [rest]
    exact Interpretation.valueOfFactors_ne_zero laws (Interpretation.safeFactors_of_tame every)
  have each : ∀ part ∈ ([⟨number q, map.find (number q)⟩,
      ⟨withCoefficient 1 factors, some replacement⟩] : List (Part Expr)),
      I.ReplacesFactor part.before part.value :=
    List.forall_mem_cons.mpr ⟨replaces_coefficient equates nonzero,
      List.forall_mem_singleton.mpr ⟨equates.replaces listed, rest_nonzero⟩⟩
  refine Interpretation.replaces_productOf laws each ?_ product
  rw [I.value_product, List.map_cons, List.map_singleton, List.prod_pair, I.value_number, rest]

theorem keeps_product (equates : map.Equates I) {q : Rat} {factors : List Factor}
    (canonical : (product q factors).Canonical)
    (unlisted : map.find (product q factors) = none)
    (every : EveryBase I.TameBase factors)
    (each : ∀ b x, (b, x) ∈ factors → map.Keeps I b ∧ map.Keeps I x) :
    map.Keeps I (product q factors) := by
  obtain ⟨nonzero, _, kept⟩ := canonical_product_iff.mp canonical
  rcases map.rest_cases q (withCoefficient 1 factors) with ⟨scaled, r, listed⟩ | unlisted_rest
  · exact keeps_product_of_rest laws equates every nonzero scaled unlisted listed
  intro after found
  rw [rewrite_product unlisted unlisted_rest] at found
  obtain ⟨parts, rewritten, found⟩ := bind_eq_ok_iff.mp found
  have whole : I.Replaces (product q factors) (product q factors) :=
    Interpretation.replaces_of_factorPart canonical rfl every
  refine keeps_of_rebuild whole (fun r built => ?_) found
  refine Interpretation.replaces_productOf laws
    (List.forall_mem_append.mpr ⟨fun part member => ?_, fun part member => ?_⟩) ?_ built
  · obtain ⟨_, rfl⟩ := of_mem_numberParts member
    exact replaces_coefficient equates nonzero
  · obtain ⟨⟨b, x⟩, stored, result⟩ := exists_of_mem_mapM rewritten member
    exact replaces_rewriteFactor laws equates (kept.factor b x stored) (every b x stored)
      (kept.bases_canonical b x stored) (kept.exponents_canonical b x stored)
      (each b x stored).1 (each b x stored).2 result
  · have values : (parts.map fun part => I.value part.before) =
        factors.map fun factor => I.value (ofFactor factor) :=
      map_eq_map_of_mapM rewritten fun factor _ part result =>
        congrArg I.value (before_rewriteFactor result)
    have product : (factors.map fun factor => I.value (ofFactor factor)).prod =
        I.valueOfFactors factors := by
      rw [← I.prod_value_partsOf laws.exponent_one, partsOf, List.map_map]
      rfl
    rw [List.map_append, List.prod_append, values, prod_numberParts, product, I.value_product]

omit [CharZero K] laws

theorem rewrite_bare {t : Expr} (bare : t.IsBare) (plain : ¬ t.HasDerivative)
    (unlisted : map.find t = none) {after : Option Expr}
    (found : (rewrite map t : Except Error (Option Expr)) = .ok after) :
    (∃ q, (Part.mk t after).value = number q) ∨ (Part.mk t after).value.IsBare := by
  cases after with
  | none => exact .inr bare
  | some r =>
    cases t with
    | symbol name =>
      rw [rewrite_symbol unlisted] at found
      cases found
    | sin a =>
      obtain ⟨a', _, rfl⟩ := rewrite_argument_eq_some (rewrite_sin unlisted) found
      exact sineOf_cases a'
    | cos a =>
      obtain ⟨a', _, rfl⟩ := rewrite_argument_eq_some (rewrite_cos unlisted) found
      exact cosineOf_cases a'
    | apply name a =>
      obtain ⟨a', _, rfl⟩ := rewrite_argument_eq_some (rewrite_apply unlisted) found
      exact .inr trivial
    | derivative a names => exact absurd .node plain
    | _ => exact absurd bare id

theorem tame_of_number_or_bare {e : Expr} (shape : (∃ q, e = number q) ∨ e.IsBare) : I.Tame e := by
  rcases shape with ⟨q, rfl⟩ | bare
  · exact .number q
  · cases e with
    | symbol name => exact .symbol name
    | sin a => exact .sin a
    | cos a => exact .cos a
    | apply name a => exact .apply name a
    | derivative a names => exact .derivative a names
    | _ => exact absurd bare id

variable [CharZero K]

theorem eq_of_value_number {q p : Rat} (value : I.value (number q) = p) : q = p := by
  rw [I.value_number] at value
  exact Rat.cast_injective value

section Apart

variable {a b : Expr} (left : a.Canonical) (right : b.Canonical)
  (apart : ∀ c e f, (c, e) ∈ a.factorPart → (c, f) ∉ b.factorPart)

include left right apart

/-- Expressions without a common base have nothing to merge. -/
theorem mergedFactors_apart :
    (mergedFactors [a, b]).Perm (a.factorPart ++ b.factorPart) := by
  have canonical := canonical_pair left right
  refine (merged_mergedFactors canonical).perm_append left.merged_factorPart right.merged_factorPart
    (fun k c => ?_) fun c e stored k => exponentCoordinate_eq_zero k (apart c e · stored)
  rw [exponentCoordinate_mergedFactors canonical, List.flatMap_cons, List.flatMap_singleton,
    exponentCoordinate_append]

theorem canonicalFactor_apart {c e : Expr} (stored : (c, e) ∈ mergedFactors [a, b]) :
    CanonicalFactor c e := by
  rcases List.mem_append.mp ((mergedFactors_apart left right apart).mem_iff.mp stored) with
    part | part
  · exact (left.factorPart.2 c e part).1
  · exact (right.factorPart.2 c e part).1

theorem productOf_apart (nonzero : collectCoefficient [a, b] ≠ 0) :
    (productOf [a, b] : Except Error Expr) =
      .ok (assembleProduct (collectCoefficient [a, b]) (mergedFactors [a, b])) := by
  have settles := settledFactors_of_canonical fun c e stored =>
    canonicalFactor_apart left right apart stored
  rw [productOf_of_merged nonzero settles (mul_one _), if_neg nonzero, if_pos rfl]

end Apart

/-- A zero base with an exponent of value one stays a base, or becomes the number zero. -/
theorem powerOf_zero_base {b y u : Expr} (shape : b = number 0 ∨ b.IsBare)
    (one : I.value y = 1) (found : (powerOf b y : Except Error Expr) = .ok u) :
    u = number 0 ∨ u.factorPart = [(b, y)] := by
  have bare (other : b ≠ number 0) : b.IsBare := shape.resolve_left other
  cases powerRule b y with
  | zeroBase p =>
    obtain rfl : p = 1 := eq_of_value_number (one.trans Rat.cast_one.symm)
    have whole : (powerOf (number 0) (number 1) : Except Error Expr) = .ok (number 0) := by cbv
    rw [whole] at found
    cases found
    exact .inl rfl
  | zeroExponent base =>
    rw [I.value_number, Rat.cast_zero] at one
    exact absurd one zero_ne_one
  | oneExponent base =>
    rw [powerOf_exponent_one base] at found
    cases found
    exact .inr (bare base).factorPart
  | oneBase _ _ => exact absurd (bare (by simp)) id
  | inside folds base_zero => exact absurd folds (bare base_zero).not_raisesInside
  | none canonical =>
    rw [powerOf_of_canonicalPower canonical] at found
    cases found
    exact .inr rfl

/-- An operand of value zero: the number, or a single zero base with an exponent of value one. -/
inductive Interpretation.Vanishes (I : Interpretation K) (u : Expr) : Prop where
  | number (whole : u = number 0)
  | base {z y} (factor : u.factorPart = [(z, y)]) (zero : I.value z = 0) (one : I.value y = 1)
      (tame : I.Tame z)

/-- A zero base that the other operand does not carry makes the product zero. No law of powers is
needed, as the factors settle as they are. -/
theorem productOf_of_vanishes (pow_one : ∀ b, I.pow b 1 = b) {c u r : Expr}
    (canonical_c : c.Canonical) (canonical_u : u.Canonical)
    (every : EveryBase I.TameBase c.factorPart) (vanishes : I.Vanishes u)
    (found : (productOf [c, u] : Except Error Expr) = .ok r) :
    I.value r = 0 ∧ I.TameTerms r := by
  have nothing (number_zero : (productOf [c, u] : Except Error Expr) = .ok (number 0)) :
      I.value r = 0 ∧ I.TameTerms r := by
    cases found.symm.trans number_zero
    exact ⟨(I.value_number 0).trans Rat.cast_zero, (Interpretation.Tame.number 0).tameTerms⟩
  cases vanishes with
  | number whole => exact nothing (productOf_of_mem_zero (by simp [whole]))
  | @base z y factor zero one tame =>
    by_cases coefficient : collectCoefficient [c, u] = 0
    · exact nothing (productOf_of_coefficient_zero coefficient)
    -- No base of the other operand is zero, so that the zero base is not merged with one of them.
    have apart : ∀ b e f, (b, e) ∈ c.factorPart → (b, f) ∉ u.factorPart := by
      intro b e f stored other
      rw [factor] at other
      cases List.mem_singleton.mp other
      exact (every z e stored).nonzero zero
    have stored : (z, y) ∈ mergedFactors [c, u] := by
      rw [(mergedFactors_apart canonical_c canonical_u apart).mem_iff, factor]
      exact List.mem_append_right _ (List.mem_singleton_self _)
    have no_factors : I.valueOfFactors (mergedFactors [c, u]) = 0 := by
      rw [← I.prod_value_partsOf pow_one]
      refine List.prod_eq_zero (List.mem_map.mpr
        ⟨ofFactor (z, y), List.mem_map.mpr ⟨(z, y), stored, rfl⟩, ?_⟩)
      rw [I.value_ofFactor pow_one, zero, one, pow_one]
    have collected := (merged_mergedFactors (canonical_pair canonical_c canonical_u)).collected
    rw [productOf_apart canonical_c canonical_u apart coefficient] at found
    cases found
    refine ⟨by rw [I.value_assembleProduct pow_one, no_factors, mul_zero], ?_⟩
    rcases collected.kept_cases fun b e member =>
      canonicalFactor_apart canonical_c canonical_u apart member with
      empty | ⟨constant, terms, lone⟩ | kept
    · rw [empty] at stored
      cases stored
    · rw [lone] at stored ⊢
      obtain rfl : z = sum constant terms := congrArg Prod.fst (List.mem_singleton.mp stored)
      rw [assembleProduct_lone_sum]
      exact (tame.scale_sum coefficient).tameTerms
    · rw [assembleProduct_eq_withCoefficient kept coefficient]
      exact Interpretation.tameTerms_of_zero pow_one kept coefficient no_factors

/-- What is zero without having a zero base is no product or power. -/
theorem vanishes_of_nonzeroBases (laws : PowerLaws I.pow) {e : Expr} (canonical : e.Canonical)
    (bases : I.NonzeroBases e) (zero : I.value e = 0) : I.Vanishes e := by
  have value_one : I.value (number 1) = 1 := (I.value_number 1).trans Rat.cast_one
  have alone (factor : e.factorPart = [(e, number 1)]) : I.Vanishes e :=
    .base factor zero value_one bases.tame
  cases e with
  | number q =>
    rw [eq_of_value_number (zero.trans Rat.cast_zero.symm)]
    exact .number rfl
  | product q factors =>
    obtain ⟨nonzero, _, _⟩ := canonical_product_iff.mp canonical
    have every : EveryBase I.TameBase factors := fun b x stored =>
      ⟨bases b (.factor stored), (bases.part (base_mem_parts stored)).tame⟩
    have factors_nonzero :=
      Interpretation.valueOfFactors_ne_zero laws (Interpretation.safeFactors_of_tame every)
    rw [I.value_product] at zero
    exact absurd zero (mul_ne_zero (Rat.cast_ne_zero.mpr nonzero) factors_nonzero)
  | power b x =>
    rw [I.value_power] at zero
    exact absurd zero (laws.ne_zero (bases b .power) _)
  | _ => exact alone rfl

section ZeroTerm

variable {t : Expr} (equates : map.Equates I) (bare : t.IsBare) (zero : I.value t = 0)
  (plain : ¬ t.HasDerivative) (keeps : map.Keeps I t)

include equates bare zero plain keeps

theorem vanishes_rewriteFactor (canonical : t.Canonical) (unlisted : map.find t = none)
    {part : Part Expr} (found : rewriteFactor map (t, number 1) = .ok part) :
    part.value.Canonical ∧ I.Vanishes part.value := by
  have value_one : I.value (number 1) = 1 := (I.value_number 1).trans Rat.cast_one
  rcases rewriteFactor_cases found with ⟨r, listed, _⟩ |
    ⟨base, exponent, after, changed_base, changed_exponent, rebuilt, rfl⟩
  · cases unlisted.symm.trans listed
  cases after with
  | none =>
    exact ⟨canonical, .base bare.factorPart zero value_one (tame_of_number_or_bare (.inr bare))⟩
  | some u =>
    have replaces_base := keeps base changed_base
    have replaces_exponent := keeps_number equates 1 exponent changed_exponent
    have zero_base := replaces_base.value.trans zero
    have one := replaces_exponent.value.trans value_one
    have power := rebuildPair_eq_some rebuilt
    have shape := rewrite_bare bare plain unlisted changed_base
    have shape_zero : (Part.mk t base).value = number 0 ∨ (Part.mk t base).value.IsBare := by
      refine shape.imp_left fun numeric => ?_
      obtain ⟨p, number_p⟩ := numeric
      rw [number_p] at zero_base ⊢
      rw [eq_of_value_number (zero_base.trans Rat.cast_zero.symm)]
    refine ⟨canonical_powerOf power replaces_base.canonical replaces_exponent.canonical, ?_⟩
    rcases powerOf_zero_base shape_zero one power with nothing | factor
    · exact .number nothing
    · exact .base factor zero_base one (tame_of_number_or_bare shape)

/-- A multiple of a term that is zero, which is no base anywhere else. -/
theorem keeps_multiple_of_zero (laws : PowerLaws I.pow) {q : Rat}
    (canonical : (product q [(t, number 1)]).Canonical) :
    map.Keeps I (product q [(t, number 1)]) := by
  obtain ⟨nonzero, not_lone, kept⟩ := canonical_product_iff.mp canonical
  have pow_one := laws.exponent_one
  have scaled : q ≠ 1 := fun one => not_lone one rfl
  have no_factors : I.valueOfFactors [(t, number 1)] = 0 := by
    rw [I.valueOfFactors_singleton, zero, I.value_number, Rat.cast_one, pow_one]
  have value_zero : I.value (product q [(t, number 1)]) = 0 := by
    rw [I.value_product, no_factors, mul_zero]
  have whole : I.Replaces (product q [(t, number 1)]) (product q [(t, number 1)]) := by
    refine ⟨canonical, rfl, ?_⟩
    rw [← withCoefficient_eq_product nonzero kept.nonempty not_lone]
    exact Interpretation.tameTerms_of_zero pow_one kept nonzero no_factors
  have coefficient := replaces_coefficient equates nonzero
  -- Whatever the term becomes, the product with it stays zero.
  have built {u r : Expr} (canonical_u : u.Canonical) (vanishes : I.Vanishes u)
      (product : (productOf [(Part.mk (number q) (map.find (number q))).value, u] :
        Except Error Expr) = .ok r) : I.Replaces (.product q [(t, number 1)]) r := by
    obtain ⟨value, terms⟩ := productOf_of_vanishes pow_one coefficient.canonical canonical_u
      (coefficient.tameBase pow_one).factorPart vanishes product
    exact ⟨canonical_productOf product (canonical_pair coefficient.canonical canonical_u),
      value.trans value_zero.symm, terms⟩
  cases listed : map.find (product q [(t, number 1)]) with
  | some r => exact equates.keeps listed
  | none =>
    have rest : withCoefficient 1 [(t, number 1)] = t := withCoefficient_one_singleton _
    intro after found
    cases listed_rest : map.find t with
    | some u =>
      rw [rewrite_product_of_rest listed scaled (rest ▸ listed_rest)] at found
      obtain ⟨r, product, rfl⟩ := map_eq_ok_iff.mp found
      have canonical_u := equates.canonical t u listed_rest
      have value_u := (equates.value t u listed_rest).trans zero
      exact built canonical_u
        (vanishes_of_nonzeroBases laws canonical_u (equates.bases t u listed_rest) value_u) product
    | none =>
      rw [rewrite_product listed fun _ => rest ▸ listed_rest] at found
      obtain ⟨parts, rewritten, found⟩ := bind_eq_ok_iff.mp found
      refine keeps_of_rebuild whole (fun r product => ?_) found
      obtain ⟨part, result, rfl⟩ : ∃ part, rewriteFactor map (t, number 1) = .ok part ∧
          [part] = parts := by
        cases mapM_eq_ok_iff.mp rewritten with
        | cons result none_left =>
          cases none_left
          exact ⟨_, result, rfl⟩
      have coefficients : numberParts map 1 q = [⟨number q, map.find (number q)⟩] := if_neg scaled
      rw [coefficients] at product
      have canonical_t := kept.bases_canonical t (number 1) (List.mem_singleton_self _)
      obtain ⟨canonical_u, vanishes⟩ :=
        vanishes_rewriteFactor equates bare zero plain keeps canonical_t listed_rest result
      exact built canonical_u vanishes product

end ZeroTerm

omit [CharZero K]

theorem keeps_argument {f : Expr → Expr} {e a : Expr} (whole : I.Replaces e e)
    (keeps : map.Keeps I a)
    (rule : (rewrite map e : Except Error (Option Expr)) = Option.map f <$> rewrite map a)
    (built : ∀ a', I.Replaces a a' → I.Replaces e (f a')) : map.Keeps I e := by
  intro after found
  cases after with
  | none => exact whole
  | some r =>
    obtain ⟨a', changed, rfl⟩ := rewrite_argument_eq_some rule found
    exact built a' (keeps _ changed)

theorem value_sineOf (sine_zero : I.sine 0 = 0) (a : Expr) :
    I.value (sineOf a) = I.sine (I.value a) := by
  unfold sineOf
  split
  · rename_i zero
    rw [isNumber_iff.mp zero, I.value_number, Rat.cast_zero, sine_zero]
  · rw [Interpretation.value]

theorem value_cosineOf (cosine_zero : I.cosine 0 = 1) (a : Expr) :
    I.value (cosineOf a) = I.cosine (I.value a) := by
  unfold cosineOf
  split
  · rename_i zero
    rw [isNumber_iff.mp zero, I.value_number, I.value_number, Rat.cast_zero, cosine_zero,
      Rat.cast_one]
  · rw [Interpretation.value]

end Rewriting

/-- An expression without formal derivatives, in which no base is zero. -/
structure Interpretation.Plain {K : Type*} [Field K] (I : Interpretation K) (e : Expr) : Prop where
  canonical : e.Canonical
  bases : I.NonzeroBases e
  formal : ¬ e.HasDerivative

theorem Expr.Canonical.part {e part : Expr} (canonical : e.Canonical) (stored : part ∈ e.parts) :
    part.Canonical := by
  cases canonical with
  | number form => cases stored
  | symbol name => cases stored
  | sum form each =>
    rcases List.mem_append.mp stored with stored | stored
    · obtain ⟨⟨t, q⟩, inside, rfl⟩ := List.mem_map.mp stored
      exact each t q inside
    · cases List.mem_singleton.mp stored
      exact canonical_number _
  | product form bases exponents =>
    rcases List.mem_append.mp stored with stored | stored
    · obtain ⟨⟨b, x⟩, inside, either⟩ := List.mem_flatMap.mp stored
      rcases List.mem_cons.mp either with rfl | either
      · exact bases _ x inside
      · cases List.mem_singleton.mp either
        exact exponents b _ inside
    · cases List.mem_singleton.mp stored
      exact canonical_number _
  | power form base exponent =>
    rcases List.mem_cons.mp stored with rfl | stored
    · exact base
    · cases List.mem_singleton.mp stored
      exact exponent
  | sin form argument =>
    cases List.mem_singleton.mp stored
    exact argument
  | cos form argument =>
    cases List.mem_singleton.mp stored
    exact argument
  | apply argument =>
    cases List.mem_singleton.mp stored
    exact argument
  | derivative form target =>
    cases List.mem_singleton.mp stored
    exact target

section Plain

variable {K : Type*} [Field K] {I : Interpretation K}

namespace Interpretation.Plain

theorem part {e part : Expr} (plain : I.Plain e) (stored : part ∈ e.parts) : I.Plain part :=
  ⟨plain.canonical.part stored, plain.bases.part stored,
    fun deeper => plain.formal (.within stored deeper)⟩

theorem replaces {e : Expr} (plain : I.Plain e) : I.Replaces e e :=
  ⟨plain.canonical, rfl, plain.bases.tame.tameTerms⟩

theorem number (q : Rat) : I.Plain (number q) := by
  refine ⟨canonical_number q, ?_, ?_⟩
  · rintro b (_ | _ | ⟨stored, _⟩)
    cases stored
  · rintro (_ | ⟨stored, _⟩)
    cases stored

theorem factor {t b x : Expr} (plain : I.Plain t) (stored : (b, x) ∈ t.factorPart) :
    (I.Plain b ∧ b.size ≤ t.size) ∧ I.Plain x ∧ x.size ≤ t.size := by
  have bare (whole : (b, x) = (t, Expr.number 1)) :
      (I.Plain b ∧ b.size ≤ t.size) ∧ I.Plain x ∧ x.size ≤ t.size := by
    cases whole
    exact ⟨⟨plain, le_rfl⟩, number 1, (size_number 1).trans_le t.size_pos⟩
  cases t with
  | number q => cases stored
  | product q factors =>
    have base := base_mem_parts (q := q) stored
    have exponent := exponent_mem_parts (q := q) stored
    exact ⟨⟨plain.part base, (size_stored_lt base).le⟩, plain.part exponent,
      (size_stored_lt exponent).le⟩
  | power c y =>
    cases List.mem_singleton.mp stored
    have base : b ∈ (power b x).parts := List.mem_cons_self ..
    have exponent : x ∈ (power b x).parts := List.mem_cons_of_mem _ (List.mem_singleton_self x)
    exact ⟨⟨plain.part base, (size_stored_lt base).le⟩, plain.part exponent,
      (size_stored_lt exponent).le⟩
  | _ => exact bare (List.mem_singleton.mp stored)

/-- Unless it is bare and zero, the factors of a term can be raised. -/
theorem everyBase {t : Expr} (plain : I.Plain t) (term : t.IsTerm)
    (other : ¬ (t.IsBare ∧ I.value t = 0)) : EveryBase I.TameBase t.factorPart := by
  have bare (shape : t.IsBare) : EveryBase I.TameBase t.factorPart :=
    TameBase.factorPart ⟨fun zero => other ⟨shape, zero⟩, plain.bases.tame⟩
  cases t with
  | number q => exact absurd term id
  | sum constant terms => exact absurd term id
  | product q factors =>
    intro b x stored
    exact ⟨plain.bases b (.factor stored), (plain.bases.part (base_mem_parts stored)).tame⟩
  | power b x =>
    exact .singleton ⟨plain.bases b .power, (plain.bases.part (List.mem_cons_self ..)).tame⟩ x
  | _ => exact bare trivial

end Interpretation.Plain

variable [CharZero K] {map : Substitution Expr} (laws : PowerLaws I.pow)

include laws

/-- A term is kept under every multiplicity. Without one it need not be a base of anything, so that
it may be zero; under one it is a base of the product. -/
theorem keeps_scale (equates : map.Equates I) {t : Expr} (plain : I.Plain t) (term : t.IsTerm)
    {q : Rat} (nonzero : q ≠ 0) (below : ∀ e, e.size ≤ t.size → I.Plain e → map.Keeps I e) :
    map.Keeps I (t.scale q) := by
  have keeps := below t le_rfl plain
  by_cases one : q = 1
  · rwa [one, scale_one]
  have kept := plain.canonical.keptFactors term
  have whole : t.scale q = product q t.factorPart := by
    rw [scale_eq_withCoefficient plain.canonical term]
    exact withCoefficient_eq_product nonzero kept.nonempty fun same => absurd same one
  have canonical := plain.canonical.scale q
  rw [whole] at canonical ⊢
  -- As all bases are non-zero, a product or power is, so that only a bare term can be zero.
  by_cases zero : t.IsBare ∧ I.value t = 0
  · rw [zero.1.factorPart] at canonical ⊢
    exact keeps_multiple_of_zero equates zero.1 zero.2 plain.formal keeps laws canonical
  · cases listed : map.find (product q t.factorPart) with
    | some r => exact equates.keeps listed
    | none =>
      refine keeps_product laws equates canonical listed (plain.everyBase term zero) ?_
      intro b x stored
      obtain ⟨⟨base, base_size⟩, exponent, exponent_size⟩ := plain.factor stored
      exact ⟨below b base_size base, below x exponent_size exponent⟩

/-- Rewriting keeps the value of a plain expression, by induction on its size. -/
theorem keeps_of_plain (sine_zero : I.sine 0 = 0) (cosine_zero : I.cosine 0 = 1)
    (equates : map.Equates I) {e : Expr} (plain : I.Plain e) : map.Keeps I e := by
  have below (part : Expr) (smaller : part.size < e.size) (plain : I.Plain part) :
      map.Keeps I part := keeps_of_plain sine_zero cosine_zero equates plain
  have stored_below {part : Expr} (stored : part ∈ e.parts) : map.Keeps I part :=
    below part (size_stored_lt stored) (plain.part stored)
  cases listed : map.find e with
  | some r => exact equates.keeps listed
  | none =>
    cases e with
    | number q => exact keeps_number equates q
    | symbol name =>
      intro after found
      rw [rewrite_symbol listed] at found
      cases found
      exact plain.replaces
    | sum constant terms =>
      refine keeps_sum laws equates plain.replaces listed fun t q stored => ?_
      cases plain.canonical with
      | sum form each =>
        refine keeps_scale laws equates (plain.part (term_mem_parts stored)) (form.bare t q stored)
          (form.multiplicity t q stored) fun part size => below part ?_
        exact size.trans_lt (size_stored_lt (term_mem_parts stored))
    | product q factors =>
      refine keeps_product laws equates plain.canonical listed (fun b x stored => ?_)
        fun b x stored => ⟨stored_below (base_mem_parts stored),
          stored_below (exponent_mem_parts stored)⟩
      exact ⟨plain.bases b (.factor stored), (plain.part (base_mem_parts stored)).bases.tame⟩
    | power b x =>
      intro after found
      rw [rewrite_power listed] at found
      obtain ⟨base, changed_base, found⟩ := bind_eq_ok_iff.mp found
      obtain ⟨exponent, changed_exponent, found⟩ := bind_eq_ok_iff.mp found
      cases after with
      | none => exact plain.replaces
      | some r =>
        have keeps_base := stored_below (List.mem_cons_self ..) base changed_base
        have keeps_exponent := stored_below (List.mem_cons_of_mem _ (List.mem_singleton_self x))
          exponent changed_exponent
        exact Interpretation.replaces_powerOf laws ⟨keeps_base, plain.bases b .power⟩ keeps_exponent
          (I.value_power b x) (rebuildPair_eq_some found)
    | sin a =>
      refine keeps_argument plain.replaces (stored_below (List.mem_singleton_self a))
        (rewrite_sin listed) fun a' replaces => ?_
      refine ⟨canonical_sineOf replaces.canonical, ?_,
        (tame_of_number_or_bare (sineOf_cases a')).tameTerms⟩
      rw [value_sineOf sine_zero, replaces.value, Interpretation.value]
    | cos a =>
      refine keeps_argument plain.replaces (stored_below (List.mem_singleton_self a))
        (rewrite_cos listed) fun a' replaces => ?_
      refine ⟨canonical_cosineOf replaces.canonical, ?_,
        (tame_of_number_or_bare (cosineOf_cases a')).tameTerms⟩
      rw [value_cosineOf cosine_zero, replaces.value, Interpretation.value]
    | apply name a =>
      refine keeps_argument plain.replaces (stored_below (List.mem_singleton_self a))
        (rewrite_apply listed) fun a' replaces => ?_
      refine ⟨.apply replaces.canonical, ?_, (Interpretation.Tame.apply name a').tameTerms⟩
      rw [Interpretation.value, replaces.value, Interpretation.value]
    | derivative a names => exact absurd .node plain.formal
termination_by e.size

end Plain

/-- Substituting equals for equals preserves value: if every replacement has the value of what it
replaces, and no base is zero in the expression or in a replacement, then the result has the value
of the expression. Formal derivatives could come out differentiated by other variables. -/
theorem value_substitute {K : Type*} [Field K] [CharZero K] {I : Interpretation K}
    (laws : PowerLaws I.pow) (sine_zero : I.sine 0 = 0) (cosine_zero : I.cosine 0 = 1)
    {map : Substitution Expr} (equates : map.Equates I) {e r : Expr} (canonical : e.Canonical)
    (formal : ¬ e.HasDerivative) (bases : I.NonzeroBases e)
    (found : (substitute map e : Except Error Expr) = .ok r) : I.value r = I.value e := by
  unfold substitute at found
  split at found
  · cases found
    rfl
  · obtain ⟨after, rewritten, found⟩ := bind_eq_ok_iff.mp found
    cases found
    exact (keeps_of_plain laws sine_zero cosine_zero equates ⟨canonical, bases, formal⟩
      after rewritten).value

/-- Where every symbol stands for two, `2*x` becomes `x*y` with `y` for two. -/
theorem value_substitute_complex :
    (substitute [(number 2, symbol "y")] (product 2 [(symbol "x", number 1)]) :
        Except Error Expr) = .ok (product 1 [(symbol "x", number 1), (symbol "y", number 1)]) ∧
      complexNumbers.value (product 1 [(symbol "x", number 1), (symbol "y", number 1)]) =
        complexNumbers.value (product 2 [(symbol "x", number 1)]) := by
  have becomes : (substitute [(number 2, symbol "y")] (product 2 [(symbol "x", number 1)]) :
      Except Error Expr) = .ok (product 1 [(symbol "x", number 1), (symbol "y", number 1)]) := by
    cbv
  have two (name : String) : complexNumbers.value (symbol name) = 2 := by
    rw [Interpretation.value]
    rfl
  have bare (name : String) : complexNumbers.Plain (symbol name) := by
    refine ⟨.symbol name, ?_, ?_⟩
    · rintro b (_ | _ | ⟨stored, _⟩)
      cases stored
    · rintro (_ | ⟨stored, _⟩)
      cases stored
  have parts {part : Expr} (stored : part ∈ (product 2 [(symbol "x", number 1)]).parts) :
      complexNumbers.Plain part := by
    simp only [Expr.parts, List.flatMap_singleton, List.cons_append, List.nil_append, List.mem_cons,
      List.not_mem_nil, or_false] at stored
    rcases stored with rfl | rfl | rfl
    · exact bare "x"
    · exact .number 1
    · exact .number 2
  have canonical : (product 2 [(symbol "x", number 1)]).Canonical :=
    @canonical_productOf [number 2, symbol "x"] _ (by cbv)
      (canonical_pair (canonical_number 2) (.symbol "x"))
  have equates : Substitution.Equates [(number 2, symbol "y")] complexNumbers := by
    have only {e r : Expr} (listed : Substitution.find [(number 2, symbol "y")] e = some r) :
        number 2 = e ∧ symbol "y" = r := by
      by_cases same : number 2 = e
      · exact ⟨same, by simpa [Substitution.find, same] using listed⟩
      · simp [Substitution.find, same] at listed
    refine ⟨fun e r listed => ?_, fun e r listed => ?_, fun e r listed => ?_⟩
    all_goals obtain ⟨rfl, rfl⟩ := only listed
    · exact .symbol "y"
    · rw [two, Interpretation.value_number, Rat.cast_ofNat]
    · exact (bare "y").bases
  refine ⟨becomes, value_substitute powerLaws_complex Complex.sin_zero Complex.cos_zero equates
    canonical ?_ ?_ becomes⟩
  · rintro (_ | ⟨stored, deeper⟩)
    exact (parts stored).formal deeper
  · rintro b (_ | stored | ⟨stored, deeper⟩)
    · cases List.mem_singleton.mp stored
      rw [two]
      exact two_ne_zero
    · exact (parts stored).bases b deeper

end SymbolicAlgebra
