import SymbolicAlgebra.Proofs.FactorwisePowers
import SymbolicAlgebra.Proofs.Renaming

namespace SymbolicAlgebra

open SymbolicAlgebra.Expr

/-- The powers of factors come in the order of the factors. -/
theorem exists_powersOf_perm {n : Int} {factors others : List Factor} {rs : List Expr}
    (exponents : ∀ b e, (b, e) ∈ factors → e.Canonical) (perm : factors.Perm others)
    (found : (powersOf factors n : Except Error (List Expr)) = .ok rs) :
    ∃ rs', (powersOf others n : Except Error (List Expr)) = .ok rs' ∧ rs.Perm rs' := by
  obtain ⟨each, rfl⟩ := (powersOf_eq_ok_iff exponents).mp found
  refine ⟨_, (powersOf_eq_ok_iff fun b e stored => ?_).mpr ⟨fun b e stored => ?_, rfl⟩, perm.map _⟩
  · exact exponents b e (perm.mem_iff.mpr stored)
  · exact each b e (perm.mem_iff.mpr stored)

section Merging

variable {σ : Equiv.Perm String}

theorem exponentsOf_renamed {b : Expr} {factors : List Factor} (base : b.Canonical)
    (bases : ∀ c f, (c, f) ∈ factors → c.Canonical) :
    exponentsOf (b.renamed σ) (factors.map (renamedFactor σ)) =
      (exponentsOf b factors).map (renamed σ) := by
  induction factors with
  | nil => rfl
  | cons head rest ih =>
    obtain ⟨c, f⟩ := head
    have tail := ih fun d g stored => bases d g (List.mem_cons_of_mem _ stored)
    have first : renamedFactor σ (c, f) = (c.renamed σ, f.renamed σ) := rfl
    rw [List.map_cons, first]
    by_cases same : c = b
    · rw [same, exponentsOf_cons_self, exponentsOf_cons_self, tail, List.map_cons]
    · have other : c.renamed σ ≠ b.renamed σ := fun equal =>
        same (renamed_injective (bases c f (List.mem_cons_self ..)) base equal)
      rw [exponentsOf_cons_of_ne other, exponentsOf_cons_of_ne same, tail]

variable {operands : List Expr} (canonical : ∀ e ∈ operands, e.Canonical)

include canonical

theorem sumOf_exponentsOf_renamed {b : Expr} (base : b.Canonical) :
    sumOf (exponentsOf (b.renamed σ) ((operands.map (renamed σ)).flatMap factorPart)) =
      (sumOf (exponentsOf b (operands.flatMap factorPart))).renamed σ := by
  have parts := canonical_factorParts canonical
  have exponents : ∀ e ∈ exponentsOf b (operands.flatMap factorPart), e.Canonical :=
    fun e among => (parts b e (mem_exponentsOf_iff.mp among)).2
  have perm := exponentsOf_perm (b.renamed σ) (factorParts_renamed σ operands)
  rw [exponentsOf_renamed base fun c f stored => (parts c f stored).1] at perm
  rw [renamed_sumOf exponents]
  exact (sumOf_perm (canonical_map_renamed exponents) perm.symm).symm

/-- What the names decide of the merged factors is their order. -/
theorem mergedFactors_renamed : mergedFactors (operands.map (renamed σ)) =
    sortPairs ((mergedFactors operands).map (renamedFactor σ)) := by
  have collected := (merged_mergedFactors canonical).collected
  have canonical' := canonical_map_renamed (σ := σ) canonical
  refine (merged_mergedFactors canonical').collected.increasing.ext
    (collected.increasing.renamed (fun _ => rfl) collected.bases_canonical) ?_
  rintro ⟨c, f⟩
  rw [mem_mergedFactors_iff_total canonical', (sortPairs_perm _).mem_iff]
  constructor
  · rintro ⟨rfl, nonzero⟩
    obtain ⟨g, carried⟩ := exists_of_mem_mergedFactors canonical'
      ((mem_mergedFactors_iff_total canonical').mpr ⟨rfl, nonzero⟩)
    obtain ⟨⟨b, e⟩, stored, same⟩ :=
      List.mem_map.mp ((factorParts_renamed σ operands).mem_iff.mp carried)
    cases same
    have total := sumOf_exponentsOf_renamed (σ := σ) canonical
      (canonical_factorParts canonical b e stored).1
    rw [total] at nonzero ⊢
    exact List.mem_map.mpr ⟨(b, _), (mem_mergedFactors_iff_total canonical).mpr
      ⟨rfl, fun zero => nonzero (zero ▸ renamed_number σ 0)⟩, rfl⟩
  · intro member
    obtain ⟨⟨b, e⟩, stored, same⟩ := List.mem_map.mp member
    cases same
    have base := collected.bases_canonical b e stored
    obtain ⟨rfl, nonzero⟩ := (mem_mergedFactors_iff_total canonical).mp stored
    rw [sumOf_exponentsOf_renamed canonical base]
    exact ⟨rfl, mt (renamed_eq_number_iff σ).mp nonzero⟩

end Merging

def Settled.renamed (σ : String → String) (settled : Settled) : Settled where
  coefficient := settled.coefficient
  kept := settled.kept.map (renamedFactor σ)
  rewritten := settled.rewritten.map (Expr.renamed σ)

section Settling

variable {σ : Equiv.Perm String}

theorem renamedFactor_injective {factor other : Factor}
    (canonical : factor.1.Canonical ∧ factor.2.Canonical)
    (canonical_other : other.1.Canonical ∧ other.2.Canonical)
    (same : renamedFactor σ factor = renamedFactor σ other) : factor = other :=
  Prod.ext (renamed_injective canonical.1 canonical_other.1 (congrArg Prod.fst same))
    (renamed_injective canonical.2 canonical_other.2 (congrArg Prod.snd same))

omit σ in
theorem Settled.add_eq (settled : Settled) (factor : Factor) {r : Expr}
    (not_number : ∀ q, r ≠ number q) (not_product : ∀ q factors, r ≠ product q factors) :
    settled.add factor r =
      if r.toFactor = factor then { settled with kept := factor :: settled.kept }
      else { settled with rewritten := r :: settled.rewritten } := by
  cases r with
  | number q => exact absurd rfl (not_number q)
  | product q factors => exact absurd rfl (not_product q factors)
  | _ => rfl

theorem Settled.renamed_add (settled : Settled) {factor : Factor} {r : Expr}
    (canonical : factor.1.Canonical ∧ factor.2.Canonical) (raised : r.Canonical) :
    (settled.add factor r).renamed σ =
      (settled.renamed σ).add (renamedFactor σ factor) (r.renamed σ) := by
  by_cases number : ∃ q, r = number q
  · obtain ⟨q, rfl⟩ := number
    rfl
  by_cases product : ∃ q factors, r = product q factors
  · obtain ⟨q, factors, rfl⟩ := product
    simp only [Settled.add, Settled.renamed, List.map_cons, renamed_product]
  have not_number (q : Rat) (same : r = .number q) := number ⟨q, same⟩
  have not_product (q : Rat) (factors : List Factor) (same : r = .product q factors) :=
    product ⟨q, factors, same⟩
  have not_number' (q : Rat) : r.renamed σ ≠ .number q :=
    mt (renamed_eq_number_iff σ).mp (not_number q)
  have not_product' (q : Rat) (factors : List Factor) : r.renamed σ ≠ .product q factors := by
    intro same
    obtain ⟨factors', whole⟩ := renamed_eq_product σ same
    exact not_product q factors' whole
  rw [Settled.add_eq _ _ not_number not_product, Settled.add_eq _ _ not_number' not_product']
  by_cases same : r.toFactor = factor
  · rw [if_pos same, if_pos (by rw [toFactor_renamed, same])]
    rfl
  · have other : (r.renamed σ).toFactor ≠ renamedFactor σ factor := by
      rw [toFactor_renamed]
      exact fun equal => same (renamedFactor_injective (canonical_toFactor raised) canonical equal)
    rw [if_neg same, if_neg other]
    rfl

theorem renamed_assembleProduct {q : Rat} (nonzero : q ≠ 0) {factors : List Factor}
    (collected : Collected factors) (each : ∀ b e, (b, e) ∈ factors → CanonicalFactor b e) :
    (assembleProduct q factors).renamed σ =
      assembleProduct q (sortPairs (factors.map (renamedFactor σ))) := by
  rcases collected.kept_cases each with rfl | ⟨c, terms, rfl⟩ | kept
  · exact congrArg (assembleProduct q) (List.perm_nil.mp (sortPairs_perm [])).symm
  · have base := collected.bases_canonical _ _ (List.mem_singleton_self _)
    have lone : sortPairs ([(sum c terms, number 1)].map (renamedFactor σ)) =
        [((sum c terms).renamed σ, number 1)] := List.perm_singleton.mp (sortPairs_perm _)
    rw [lone, assembleProduct_lone_sum, renamed_scale base, renamed_sum, assembleProduct_lone_sum]
  · rw [assembleProduct_eq_withCoefficient kept nonzero, withCoefficient_renamed,
      assembleProduct_eq_withCoefficient (keptFactors_renamed kept) nonzero]

/-- Collected factors that settle also settle after their names are changed, in the new order. -/
theorem exists_settled_renamed {operands : List Expr} {settled : Settled}
    (canonical : ∀ e ∈ operands, e.Canonical)
    (found : (settledFactors ((collectFactors operands).map (renamedFactor σ)) :
      Except Error Settled) = .ok (settled.renamed σ)) :
    ∃ settled', (settledFactors (mergedFactors (operands.map (renamed σ))) :
        Except Error Settled) = .ok settled' ∧
      (settled.renamed σ).Perm settled' ∧
      settled'.kept = sortPairs (settled.kept.map (renamedFactor σ)) := by
  have nonzero : ((collectFactors operands).map (renamedFactor σ)).filter
      (fun factor => !factor.2.isZero) = (mergedFactors operands).map (renamedFactor σ) := by
    rw [List.filter_map]
    refine congrArg _ (List.filter_congr fun factor _ => ?_)
    exact congrArg _ (isZero_renamed σ factor.2)
  have perm := (sortPairs_perm ((mergedFactors operands).map (renamedFactor σ))).symm
  rw [← settledFactors_nonzero, nonzero] at found
  rw [← mergedFactors_renamed canonical] at perm
  obtain ⟨settled', found', same⟩ := exists_settledFactors_perm perm found
  have merged := merged_mergedFactors (canonical_map_renamed (σ := σ) canonical)
  have form := (settledFactors_eq_ok_iff.mp found').canonical merged.collected
  refine ⟨settled', found', same, (sortPairs_eq ?_ same.kept).symm⟩
  exact (merged.collected.sublist form.sublist).increasing

/-- A product whose names were changed, once its factors have settled. -/
theorem productOf_renamed {operands : List Expr} {settled : Settled}
    (canonical : ∀ e ∈ operands, e.Canonical) (coefficient : collectCoefficient operands ≠ 0)
    (settles : SettleRun (collectFactors operands) settled)
    (found : (settledFactors ((collectFactors operands).map (renamedFactor σ)) :
      Except Error Settled) = .ok (settled.renamed σ)) {q : Rat}
    (total : collectCoefficient operands * settled.coefficient = q) :
    (productOf (operands.map (renamed σ)) : Except Error Expr) =
      if q = 0 then .ok (number 0)
      else if settled.rewritten = [] then .ok ((assembleProduct q settled.kept).renamed σ)
      else productOf
        ((settled.rewritten ++ partsOf settled.kept ++ [number q]).map (renamed σ)) := by
  have collected := collected_collectFactors canonical
  have form := settles.canonical collected
  obtain ⟨settled', settles', same, kept⟩ := exists_settled_renamed canonical found
  rw [← collectCoefficient_renamed σ] at coefficient total
  rw [productOf_of_merged coefficient settles' (same.coefficient ▸ total)]
  by_cases zero : q = 0
  · rw [if_pos zero, if_pos zero]
  rw [if_neg zero, if_neg zero]
  by_cases done : settled.rewritten = []
  · have done' : settled'.rewritten = [] :=
      same.rewritten_eq_nil_iff.mp (List.map_eq_nil_iff.mpr done)
    rw [if_pos done, if_pos done', kept, renamed_assembleProduct zero
      (collected.sublist form.sublist) form.kept]
  · have again : settled'.rewritten ≠ [] := fun none =>
      done (List.map_eq_nil_iff.mp (same.rewritten_eq_nil_iff.mpr none))
    have restart : ((settled.rewritten ++ partsOf settled.kept ++ [number q]).map (renamed σ)).Perm
        (settled'.rewritten ++ partsOf settled'.kept ++ [number q]) := by
      rw [List.map_append, List.map_append, partsOf_renamed]
      exact (same.rewritten.append (same.kept.map ofFactor)).append_right _
    rw [if_neg done, if_neg again]
    exact (productOf_perm (canonical_map_renamed (form.again collected)) restart).symm

end Settling

mutual

/-- Names may be changed before or after operands are multiplied. -/
theorem ProductRun.renamed {σ : Equiv.Perm String} : ∀ {operands r}, ProductRun operands r →
    (∀ e ∈ operands, e.Canonical) →
    (productOf (operands.map (Expr.renamed σ)) : Except Error Expr) = .ok (r.renamed σ)
  | operands, _, .zero vanishes, canonical =>
    productOf_of_coefficient_zero ((collectCoefficient_renamed σ operands).trans vanishes)
  | operands, _, .vanished settles vanishes, canonical => by
    have collected := collected_collectFactors canonical
    by_cases coefficient : collectCoefficient operands = 0
    · exact productOf_of_coefficient_zero
        ((collectCoefficient_renamed σ operands).trans coefficient)
    · have found := settles.renamed (σ := σ) (collected.of_perm (.refl _))
      rw [productOf_renamed canonical coefficient settles found vanishes, if_pos rfl]
      rfl
  | operands, _, .assembled settles nonzero done, canonical => by
    have collected := collected_collectFactors canonical
    have found := settles.renamed (σ := σ) (collected.of_perm (.refl _))
    rw [productOf_renamed canonical (left_ne_zero_of_mul nonzero) settles found rfl, if_neg nonzero,
      if_pos done]
  | operands, _, .again settles nonzero rewritten rest, canonical => by
    have collected := collected_collectFactors canonical
    have found := settles.renamed (σ := σ) (collected.of_perm (.refl _))
    rw [productOf_renamed canonical (left_ne_zero_of_mul nonzero) settles found rfl, if_neg nonzero,
      if_neg rewritten]
    exact rest.renamed ((settles.canonical collected).again collected)

theorem SettleRun.renamed {σ : Equiv.Perm String} : ∀ {factors settled},
    SettleRun factors settled → (∀ b e, (b, e) ∈ factors → b.Canonical ∧ e.Canonical) →
    (settledFactors (factors.map (renamedFactor σ)) : Except Error Settled) =
      .ok (settled.renamed σ)
  | _, _, .nil, _ => SettleRun.nil.settledFactors_eq_ok
  | _, _, .dropped tail, canonical => by
    have later := tail.renamed (σ := σ) fun b e member =>
      canonical b e (List.mem_cons_of_mem _ member)
    exact (SettleRun.dropped (settledFactors_eq_ok_iff.mp later)).settledFactors_eq_ok
  | _, _, @SettleRun.raised b e r rest settled exponent raises tail, canonical => by
    obtain ⟨base, power⟩ := canonical b e (List.mem_cons_self ..)
    have here := raises.renamed (σ := σ) base power
    have later := tail.renamed (σ := σ) fun b e member =>
      canonical b e (List.mem_cons_of_mem _ member)
    rw [Settled.renamed_add settled ⟨base, power⟩ (raises.canonical base power)]
    exact (SettleRun.raised (mt (renamed_eq_number_iff σ).mp exponent) (powerOf_eq_ok_iff.mp here)
      (settledFactors_eq_ok_iff.mp later)).settledFactors_eq_ok

theorem PowerRun.renamed {σ : Equiv.Perm String} : ∀ {b e r}, PowerRun b e r → b.Canonical →
    e.Canonical →
    (powerOf (b.renamed σ) (e.renamed σ) : Except Error Expr) = .ok (r.renamed σ)
  | _, _, _, .zeroBase found, _, _ => (PowerRun.zeroBase found).powerOf_eq_ok
  | _, _, _, .zeroExponent base, _, _ =>
    powerOf_exponent_zero (mt (renamed_eq_number_iff σ).mp base)
  | _, _, _, .oneExponent base, _, _ =>
    powerOf_exponent_one (mt (renamed_eq_number_iff σ).mp base)
  | _, _, _, .oneBase zero one, _, _ =>
    powerOf_base_one (mt (renamed_eq_number_iff σ).mp zero) (mt (renamed_eq_number_iff σ).mp one)
  | _, _, _, .exact base_zero base_one zero one found, _, _ =>
    (PowerRun.exact base_zero base_one zero one found).powerOf_eq_ok
  | _, _, _, .nested zero one exponent inner, base, integer => by
    cases base with
    | power form base inner_exponent =>
      have operands := canonical_pair inner_exponent integer
      have multiplied := exponent.renamed (σ := σ) operands
      have raised := inner.renamed (σ := σ) base (exponent.canonical operands)
      exact (PowerRun.nested zero one (productOf_eq_ok_iff.mp multiplied)
        (powerOf_eq_ok_iff.mp raised)).powerOf_eq_ok
  | _, _, _, @PowerRun.distributed coefficient factors p rs r n zero one number_power powers whole,
      base, _ => by
    cases base with
    | product form bases exponents =>
      have canonical := List.forall_mem_cons.mpr
        ⟨canonical_number p, powers.canonical bases exponents⟩
      have raised := powers.renamed (σ := σ) fun b e member =>
        ⟨bases b e member, exponents b e member⟩
      obtain ⟨rs', raised', perm⟩ := exists_powersOf_perm (fun b e stored => by
        obtain ⟨⟨c, f⟩, member, same⟩ := List.mem_map.mp stored
        cases same
        exact canonical_renamed (exponents c f member)) (sortPairs_perm _).symm raised
      have product := whole.renamed (σ := σ) canonical
      rw [productOf_perm (canonical_map_renamed canonical) (perm.cons _)] at product
      rw [renamed_product, renamed_number, powerOf_product zero one]
      exact bind_eq_ok_iff.mpr ⟨p, number_power, bind_eq_ok_iff.mpr ⟨rs', raised', product⟩⟩
  | _, _, _, .kept canonical, _, _ => powerOf_of_canonicalPower (CanonicalPower.renamed canonical)

theorem PowersRun.renamed {σ : Equiv.Perm String} : ∀ {factors n rs}, PowersRun factors n rs →
    (∀ b e, (b, e) ∈ factors → b.Canonical ∧ e.Canonical) →
    (powersOf (factors.map (renamedFactor σ)) n : Except Error (List Expr)) =
      .ok (rs.map (Expr.renamed σ))
  | _, _, _, .nil, _ => PowersRun.nil.powersOf_eq_ok
  | _, n, _, .cons exponent raises tail, canonical => by
    obtain ⟨base, inner⟩ := canonical _ _ (List.mem_cons_self ..)
    have operands := canonical_pair inner (canonical_number n)
    have multiplied := exponent.renamed (σ := σ) operands
    have raised := raises.renamed (σ := σ) base (exponent.canonical operands)
    have later := tail.renamed (σ := σ) fun b e member =>
      canonical b e (List.mem_cons_of_mem _ member)
    rw [List.map_cons, List.map_cons]
    exact (PowersRun.cons (productOf_eq_ok_iff.mp multiplied) (powerOf_eq_ok_iff.mp raised)
      (PowersRun.of_powersOf later)).powersOf_eq_ok

end

end SymbolicAlgebra
