import SymbolicAlgebra.Proofs.Merging
import SymbolicAlgebra.Proofs.Summands

namespace SymbolicAlgebra

open SymbolicAlgebra.Expr

/-- Pairs in the order of the expressions that come first in them. -/
def sortPairs {β : Type} (pairs : List (Expr × β)) : List (Expr × β) :=
  pairs.mergeSort fun x y => (x.1.compare y.1).isLE

section Sorting

variable {β : Type}

theorem sortPairs_perm (pairs : List (Expr × β)) : (sortPairs pairs).Perm pairs :=
  List.mergeSort_perm ..

theorem sortPairs_eq {pairs others : List (Expr × β)} (increasing : Increasing pairs)
    (perm : others.Perm pairs) : sortPairs others = pairs :=
  increasing.mergeSort_eq perm

theorem increasing_sortPairs {pairs : List (Expr × β)} (distinct : (pairs.map Prod.fst).Nodup) :
    Increasing (sortPairs pairs) := by
  have distinct' : ((sortPairs pairs).map Prod.fst).Nodup :=
    ((sortPairs_perm pairs).map Prod.fst).nodup_iff.mpr distinct
  refine (ordered_mergeSort pairs).imp₂ ?_ (List.pairwise_map.mp distinct')
  intro x y below different
  cases order : x.1.compare y.1 with
  | lt => rfl
  | eq => exact absurd (compare_eq_iff.mp order) different
  | gt =>
    rw [order] at below
    cases below

theorem sortPairs_map_snd (f : β → β) (pairs : List (Expr × β)) :
    sortPairs (pairs.map fun (t, r) => (t, f r)) = (sortPairs pairs).map fun (t, r) => (t, f r) :=
  (@List.map_mergeSort (Expr × β) (Expr × β) (fun x y => (x.1.compare y.1).isLE)
    (fun x y => (x.1.compare y.1).isLE) (fun (t, r) => (t, f r)) pairs fun _ _ _ _ => rfl).symm

end Sorting

namespace Expr

mutual

/-- The expression with other names for its symbols. Terms and factors are put in order again, and
functions keep their names. -/
def renamed (σ : String → String) : Expr → Expr
  | number q => number q
  | symbol name => symbol (σ name)
  | sum constant terms => sum constant (sortPairs (renamedTerms σ terms))
  | product coefficient factors => product coefficient (sortPairs (renamedFactors σ factors))
  | power b e => power (renamed σ b) (renamed σ e)
  | sin a => sin (renamed σ a)
  | cos a => cos (renamed σ a)
  | apply name a => apply name (renamed σ a)
  | derivative a names => derivative (renamed σ a) (names.map σ)

def renamedTerms (σ : String → String) : List Multiple → List Multiple
  | [] => []
  | (t, q) :: rest => (renamed σ t, q) :: renamedTerms σ rest

def renamedFactors (σ : String → String) : List Factor → List Factor
  | [] => []
  | (b, e) :: rest => (renamed σ b, renamed σ e) :: renamedFactors σ rest

end

end Expr

def renamedMultiple (σ : String → String) (multiple : Multiple) : Multiple :=
  (multiple.1.renamed σ, multiple.2)

def renamedFactor (σ : String → String) (factor : Factor) : Factor :=
  (factor.1.renamed σ, factor.2.renamed σ)

section Shape

variable (σ : String → String)

theorem renamedTerms_eq (terms : List Multiple) :
    renamedTerms σ terms = terms.map (renamedMultiple σ) := by
  induction terms with
  | nil => rfl
  | cons head rest ih =>
    rw [List.map_cons, ← ih]
    rfl

theorem renamedFactors_eq (factors : List Factor) :
    renamedFactors σ factors = factors.map (renamedFactor σ) := by
  induction factors with
  | nil => rfl
  | cons head rest ih =>
    rw [List.map_cons, ← ih]
    rfl

@[simp]
theorem renamed_sum (constant : Rat) (terms : List Multiple) : (sum constant terms).renamed σ =
    sum constant (sortPairs (terms.map (renamedMultiple σ))) := by
  rw [← renamedTerms_eq]
  rfl

@[simp]
theorem renamed_product (coefficient : Rat) (factors : List Factor) :
    (product coefficient factors).renamed σ =
      product coefficient (sortPairs (factors.map (renamedFactor σ))) := by
  rw [← renamedFactors_eq]
  rfl

@[simp]
theorem renamed_number (q : Rat) : (number q).renamed σ = number q :=
  rfl

@[simp]
theorem renamed_symbol (name : String) : (symbol name).renamed σ = symbol (σ name) :=
  rfl

@[simp]
theorem renamed_power (b e : Expr) :
    (power b e).renamed σ = power (b.renamed σ) (e.renamed σ) :=
  rfl

@[simp]
theorem renamed_sin (a : Expr) : (sin a).renamed σ = sin (a.renamed σ) :=
  rfl

@[simp]
theorem renamed_cos (a : Expr) : (cos a).renamed σ = cos (a.renamed σ) :=
  rfl

@[simp]
theorem renamed_apply (name : String) (a : Expr) :
    (apply name a).renamed σ = apply name (a.renamed σ) :=
  rfl

@[simp]
theorem renamed_derivative (a : Expr) (names : List String) :
    (derivative a names).renamed σ = derivative (a.renamed σ) (names.map σ) :=
  rfl

theorem renamed_eq_number_iff {e : Expr} {q : Rat} : e.renamed σ = number q ↔ e = number q := by
  cases e <;> simp

theorem renamed_eq_sum {e : Expr} {constant : Rat} {terms : List Multiple}
    (same : e.renamed σ = sum constant terms) : ∃ terms', e = sum constant terms' := by
  cases e <;> simp_all

theorem renamed_eq_product {e : Expr} {coefficient : Rat} {factors : List Factor}
    (same : e.renamed σ = product coefficient factors) :
    ∃ factors', e = product coefficient factors' := by
  cases e <;> simp_all

theorem number?_renamed (e : Expr) : (e.renamed σ).number? = e.number? := by
  cases e <;> simp [number?]

theorem integer?_renamed (e : Expr) : (e.renamed σ).integer? = e.integer? := by
  cases e <;> simp [integer?]

theorem symbol?_renamed (e : Expr) : (e.renamed σ).symbol? = e.symbol?.map σ := by
  cases e <;> simp [symbol?]

theorem isZero_renamed (e : Expr) : (e.renamed σ).isZero = e.isZero := by
  rw [Bool.eq_iff_iff, isZero, isZero, isNumber_iff, isNumber_iff, renamed_eq_number_iff]

theorem sineOf_renamed (a : Expr) : (sineOf a).renamed σ = sineOf (a.renamed σ) := by
  unfold sineOf
  rw [isZero_renamed]
  split <;> simp

theorem cosineOf_renamed (a : Expr) : (cosineOf a).renamed σ = cosineOf (a.renamed σ) := by
  unfold cosineOf
  rw [isZero_renamed]
  split <;> simp

theorem raisesInside_renamed (e : Expr) : (e.renamed σ).raisesInside = e.raisesInside := by
  cases e <;> simp [raisesInside]

theorem isTerm_renamed_iff {e : Expr} : (e.renamed σ).IsTerm ↔ e.IsTerm := by
  cases e <;> simp [IsTerm]

theorem coefficientPart_renamed (e : Expr) : (e.renamed σ).coefficientPart = e.coefficientPart := by
  cases e <;> simp [coefficientPart]

theorem constantPart_renamed (e : Expr) : (e.renamed σ).constantPart = e.constantPart := by
  cases e <;> simp [constantPart]

theorem collectCoefficient_renamed (operands : List Expr) :
    collectCoefficient (operands.map (renamed σ)) = collectCoefficient operands := by
  induction operands with
  | nil => rfl
  | cons e rest ih =>
    rw [List.map_cons, collectCoefficient, coefficientPart_renamed, ih, collectCoefficient]

theorem toFactor_renamed (e : Expr) : (e.renamed σ).toFactor = renamedFactor σ e.toFactor := by
  cases e <;> simp [toFactor, renamedFactor]

theorem ofFactor_renamed (factor : Factor) :
    (ofFactor factor).renamed σ = ofFactor (renamedFactor σ factor) := by
  obtain ⟨b, e⟩ := factor
  by_cases one : e = number 1
  · subst one
    rfl
  · have other : e.renamed σ ≠ number 1 := mt (renamed_eq_number_iff σ).mp one
    have whole : ofFactor (b, e) = power b e := if_neg (mt isNumber_iff.mp one)
    rw [whole]
    exact (if_neg (mt isNumber_iff.mp other)).symm

theorem partsOf_renamed (factors : List Factor) :
    (partsOf factors).map (renamed σ) = partsOf (factors.map (renamedFactor σ)) := by
  simp only [partsOf, List.map_map]
  exact List.map_congr_left fun factor _ => ofFactor_renamed σ factor

theorem factorPart_renamed (e : Expr) :
    (e.renamed σ).factorPart.Perm (e.factorPart.map (renamedFactor σ)) := by
  cases e with
  | product q factors =>
    rw [renamed_product]
    exact sortPairs_perm _
  | number q => rw [renamed_number]; rfl
  | _ => simp [factorPart, toFactor, renamedFactor]

theorem factorParts_renamed (operands : List Expr) :
    ((operands.map (renamed σ)).flatMap factorPart).Perm
      ((operands.flatMap factorPart).map (renamedFactor σ)) := by
  rw [List.flatMap_map, List.map_flatMap]
  exact List.Perm.flatMap_left operands fun e _ => factorPart_renamed σ e

theorem withCoefficient_renamed (q : Rat) (factors : List Factor) :
    (withCoefficient q factors).renamed σ =
      withCoefficient q (sortPairs (factors.map (renamedFactor σ))) := by
  unfold withCoefficient
  by_cases zero : q = 0
  · rw [if_pos zero, if_pos zero, renamed_number]
  rw [if_neg zero, if_neg zero]
  have length := (sortPairs_perm (factors.map (renamedFactor σ))).length_eq
  rw [List.length_map] at length
  rcases factors with _ | ⟨f, _ | ⟨g, rest⟩⟩
  · rw [List.length_eq_zero_iff.mp length, renamed_number]
  · have lone : sortPairs ([f].map (renamedFactor σ)) = [renamedFactor σ f] :=
      List.perm_singleton.mp (sortPairs_perm _)
    rw [lone]
    dsimp only
    split
    · exact ofFactor_renamed σ f
    · rw [renamed_product, lone]
  · rw [renamed_product]
    generalize sortPairs ((f :: g :: rest).map (renamedFactor σ)) = sorted at length
    rcases sorted with _ | ⟨x, _ | ⟨y, others⟩⟩
    · cases length
    · cases length
    · rfl

end Shape

theorem map_map_cancel {α β : Type} {f : α → β} {g : β → α} {as : List α}
    (back : ∀ a ∈ as, g (f a) = a) : (as.map f).map g = as := by
  rw [List.map_map]
  exact (List.map_congr_left back).trans (List.map_id as)

/-- What is renamed can be renamed back. -/
theorem renamed_renamed {σ τ : String → String} (inverse : ∀ name, τ (σ name) = name) {e : Expr}
    (canonical : e.Canonical) : (e.renamed σ).renamed τ = e := by
  induction canonical with
  | number form => rfl
  | symbol name => rw [renamed_symbol, renamed_symbol, inverse]
  | @sum constant terms form each ih =>
    have back : ∀ multiple ∈ terms, renamedMultiple τ (renamedMultiple σ multiple) = multiple :=
      fun multiple stored => Prod.ext (ih multiple.1 multiple.2 stored) rfl
    have perm := (sortPairs_perm (terms.map (renamedMultiple σ))).map (renamedMultiple τ)
    rw [map_map_cancel back] at perm
    rw [renamed_sum, renamed_sum, sortPairs_eq form.increasing perm]
  | @product coefficient factors form bases exponents ih_bases ih_exponents =>
    have back : ∀ factor ∈ factors, renamedFactor τ (renamedFactor σ factor) = factor :=
      fun factor stored => Prod.ext (ih_bases factor.1 factor.2 stored)
        (ih_exponents factor.1 factor.2 stored)
    have perm := (sortPairs_perm (factors.map (renamedFactor σ))).map (renamedFactor τ)
    rw [map_map_cancel back] at perm
    rw [renamed_product, renamed_product, sortPairs_eq form.increasing perm]
  | power form base exponent ih_base ih_exponent =>
    rw [renamed_power, renamed_power, ih_base, ih_exponent]
  | sin form argument ih => rw [renamed_sin, renamed_sin, ih]
  | cos form argument ih => rw [renamed_cos, renamed_cos, ih]
  | apply argument ih => rw [renamed_apply, renamed_apply, ih]
  | @derivative a names form target ih =>
    rw [renamed_derivative, renamed_derivative, ih, map_map_cancel fun name _ => inverse name]

section Permutation

variable (σ : Equiv.Perm String)

theorem renamed_symm {e : Expr} (canonical : e.Canonical) :
    (e.renamed σ).renamed σ.symm = e :=
  renamed_renamed σ.symm_apply_apply canonical

variable {σ}

theorem renamed_injective {a b : Expr} (left : a.Canonical) (right : b.Canonical)
    (same : a.renamed σ = b.renamed σ) : a = b := by
  rw [← renamed_symm σ left, same, renamed_symm σ right]

/-- Renamed expressions that were distinct stay distinct. -/
theorem nodup_renamed {es : List Expr} (canonical : ∀ e ∈ es, e.Canonical) (distinct : es.Nodup) :
    (es.map (renamed σ)).Nodup :=
  distinct.map_on fun a left b right same =>
    renamed_injective (canonical a left) (canonical b right) same

theorem Increasing.renamed {β : Type} {f : Expr × β → Expr × β}
    (first : ∀ pair, (f pair).1 = pair.1.renamed σ) {pairs : List (Expr × β)}
    (increasing : Increasing pairs) (canonical : ∀ t x, (t, x) ∈ pairs → t.Canonical) :
    Increasing (sortPairs (pairs.map f)) := by
  have firsts : (pairs.map f).map Prod.fst = (pairs.map Prod.fst).map (Expr.renamed σ) := by
    rw [List.map_map, List.map_map]
    exact List.map_congr_left fun pair _ => first pair
  refine increasing_sortPairs (firsts ▸ nodup_renamed (fun t member => ?_) increasing.nodup_fst)
  obtain ⟨⟨t, x⟩, stored, rfl⟩ := List.mem_map.mp member
  exact canonical t x stored

theorem CanonicalPower.renamed {b e : Expr} (form : CanonicalPower b e) :
    CanonicalPower (b.renamed σ) (e.renamed σ) where
  exponent_ne_zero := mt (renamed_eq_number_iff σ).mp form.exponent_ne_zero
  exponent_ne_one := mt (renamed_eq_number_iff σ).mp form.exponent_ne_one
  base_ne_one := mt (renamed_eq_number_iff σ).mp form.base_ne_one
  symbolic_over_zero zero := by
    rw [number?_renamed]
    exact form.symbolic_over_zero ((renamed_eq_number_iff σ).mp zero)
  fractional_over_folding folds := by
    rw [raisesInside_renamed] at folds
    rw [integer?_renamed]
    exact form.fractional_over_folding folds

theorem CanonicalFactor.renamed {b e : Expr} (factor : CanonicalFactor b e) :
    CanonicalFactor (b.renamed σ) (e.renamed σ) := by
  rcases canonicalFactor_iff.mp factor with ⟨rfl, free⟩ | form
  · exact canonicalFactor_iff.mpr (.inl ⟨renamed_number σ 1, by rwa [raisesInside_renamed]⟩)
  · exact canonicalFactor_iff.mpr (.inr (CanonicalPower.renamed form))

theorem mem_renamedTerms {terms : List Multiple} {u : Expr} {q : Rat}
    (stored : (u, q) ∈ sortPairs (terms.map (renamedMultiple σ))) :
    ∃ t, (t, q) ∈ terms ∧ t.renamed σ = u := by
  obtain ⟨⟨t, r⟩, member, same⟩ := List.mem_map.mp ((sortPairs_perm _).mem_iff.mp stored)
  cases same
  exact ⟨t, member, rfl⟩

theorem mem_renamedFactors {factors : List Factor} {c f : Expr}
    (stored : (c, f) ∈ sortPairs (factors.map (renamedFactor σ))) :
    ∃ b e, (b, e) ∈ factors ∧ b.renamed σ = c ∧ e.renamed σ = f := by
  obtain ⟨⟨b, e⟩, member, same⟩ := List.mem_map.mp ((sortPairs_perm _).mem_iff.mp stored)
  cases same
  exact ⟨b, e, member, rfl, rfl⟩

theorem KeptFactors.renamed {factors : List Factor} (kept : KeptFactors factors)
    (bases : ∀ b e, (b, e) ∈ factors → (b.renamed σ).Canonical)
    (exponents : ∀ b e, (b, e) ∈ factors → (e.renamed σ).Canonical) :
    KeptFactors (sortPairs (factors.map (renamedFactor σ))) where
  nonempty none :=
    kept.nonempty (List.map_eq_nil_iff.mp (List.nil_perm.mp (none ▸ sortPairs_perm _)))
  increasing := kept.increasing.renamed (fun _ => rfl) kept.bases_canonical
  factor b e stored := by
    obtain ⟨c, f, member, rfl, rfl⟩ := mem_renamedFactors stored
    exact CanonicalFactor.renamed (kept.factor c f member)
  not_lone_sum constant terms lone := by
    have perm := sortPairs_perm (factors.map (renamedFactor σ))
    rw [lone] at perm
    obtain ⟨⟨b, e⟩, rfl, same⟩ := List.map_eq_singleton_iff.mp (List.singleton_perm.mp perm).symm
    obtain ⟨base, exponent⟩ := Prod.mk.inj same
    obtain ⟨terms', rfl⟩ := renamed_eq_sum σ base
    obtain rfl : e = number 1 := (renamed_eq_number_iff σ).mp exponent
    exact kept.not_lone_sum constant terms' rfl
  bases_canonical b e stored := by
    obtain ⟨c, f, member, rfl, rfl⟩ := mem_renamedFactors stored
    exact bases c f member
  exponents_canonical b e stored := by
    obtain ⟨c, f, member, rfl, rfl⟩ := mem_renamedFactors stored
    exact exponents c f member

theorem canonical_renamed {e : Expr} (canonical : e.Canonical) : (e.renamed σ).Canonical := by
  induction canonical with
  | number form => exact .number form
  | symbol name => exact .symbol (σ name)
  | @sum constant terms form each ih =>
    have perm := sortPairs_perm (terms.map (renamedMultiple σ))
    rw [renamed_sum]
    refine .sum ⟨fun none => ?_, fun zero => ?_, form.increasing.renamed (fun _ => rfl) each,
      fun t q stored => ?_, fun t q stored => ?_⟩ fun t q stored => ?_
    · exact form.nonempty (List.map_eq_nil_iff.mp (List.nil_perm.mp (none ▸ perm)))
    · rw [perm.length_eq, List.length_map]
      exact form.not_lone zero
    all_goals obtain ⟨u, member, rfl⟩ := mem_renamedTerms stored
    · exact (isTerm_renamed_iff σ).mpr (form.bare u q member)
    · exact form.multiplicity u q member
    · exact ih u q member
  | @product coefficient factors form bases exponents ih_bases ih_exponents =>
    obtain ⟨nonzero, not_lone, kept⟩ := canonical_product_iff.mp (.product form bases exponents)
    rw [renamed_product]
    refine canonical_product_iff.mpr ⟨nonzero, fun one => ?_,
      KeptFactors.renamed kept ih_bases ih_exponents⟩
    rw [(sortPairs_perm _).length_eq, List.length_map]
    exact not_lone one
  | power form base exponent ih_base ih_exponent =>
    exact .power (CanonicalPower.renamed form) ih_base ih_exponent
  | sin form argument ih => exact .sin (mt (renamed_eq_number_iff σ).mp form) ih
  | cos form argument ih => exact .cos (mt (renamed_eq_number_iff σ).mp form) ih
  | apply argument ih => exact .apply ih
  | derivative form target ih => exact .derivative (mt List.map_eq_nil_iff.mp form) ih

theorem canonical_map_renamed {es : List Expr} (canonical : ∀ e ∈ es, e.Canonical) :
    ∀ e ∈ es.map (renamed σ), e.Canonical :=
  List.forall_mem_map.mpr fun e member => canonical_renamed (canonical e member)

theorem keptFactors_renamed {factors : List Factor} (kept : KeptFactors factors) :
    KeptFactors (sortPairs (factors.map (renamedFactor σ))) :=
  KeptFactors.renamed kept
    (fun b e stored => canonical_renamed (kept.bases_canonical b e stored))
    fun b e stored => canonical_renamed (kept.exponents_canonical b e stored)

theorem renamed_scale {e : Expr} (canonical : e.Canonical) (q : Rat) :
    (e.scale q).renamed σ = (e.renamed σ).scale q := by
  by_cases zero : q = 0
  · rw [zero, scale_zero, scale_zero, renamed_number]
  cases canonical.shape with
  | number p => rw [scale_number, renamed_number, renamed_number, scale_number]
  | @sum constant terms form each =>
    rw [scale_sum zero, renamed_sum, renamed_sum, scale_sum zero, ← sortPairs_map_snd, List.map_map,
      List.map_map]
    rfl
  | @multiple p factors nonzero kept =>
    rw [kept.scale_withCoefficient, withCoefficient_renamed, withCoefficient_renamed,
      (keptFactors_renamed kept).scale_withCoefficient]

/-- The terms of a renamed expression are the renamed terms, in another order. -/
theorem termPart_renamed (e : Expr) :
    (e.renamed σ).termPart.Perm (e.termPart.map (renamedMultiple σ)) := by
  cases e with
  | number q => exact .nil
  | sum constant terms =>
    rw [renamed_sum]
    exact sortPairs_perm _
  | product q factors =>
    have rest := withCoefficient_renamed σ 1 factors
    rw [renamed_product]
    simp only [termPart, List.map_cons, List.map_nil, renamedMultiple, rest, List.Perm.refl]
  | _ => exact .refl _

/-- Names may be changed before or after a sum is formed. -/
theorem renamed_sumOf {es : List Expr} (canonical : ∀ e ∈ es, e.Canonical) :
    (sumOf es).renamed σ = sumOf (es.map (renamed σ)) := by
  have whole := canonical_renamed (σ := σ) (canonical_sumOf canonical)
  refine whole.ext (canonical_sumOf (canonical_map_renamed canonical)) fun k => ?_
  rw [coordinate_sumOf (canonical_map_renamed canonical), List.map_map]
  cases k with
  | none =>
    have constants := coordinate_sumOf canonical none
    simp only [coordinate] at constants ⊢
    rw [constantPart_renamed, constants]
    exact congrArg List.sum (List.map_congr_left fun e _ => (constantPart_renamed σ e).symm)
  | some u =>
    have read (e : Expr) : multiplicityOf u (e.renamed σ).termPart =
        combination (fun t => if t.renamed σ = u then 1 else 0) e.termPart := by
      rw [multiplicityOf, combination_perm _ (termPart_renamed e)]
      simp only [combination, List.map_map]
      rfl
    have terms := combination_sumOf (fun t => if t.renamed σ = u then 1 else 0) 0 canonical
    simp only [mul_zero, zero_add] at terms
    simp only [coordinate, read, terms, Function.comp_def]

end Permutation

end SymbolicAlgebra
