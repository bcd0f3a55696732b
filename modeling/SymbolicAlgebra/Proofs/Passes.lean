import SymbolicAlgebra.Proofs.Settling
import SymbolicAlgebra.Proofs.SharedBases

namespace SymbolicAlgebra

open SymbolicAlgebra.Expr

theorem coefficientPart_ofFactor {b e : Expr} (factor : CanonicalFactor b e) :
    (ofFactor (b, e)).coefficientPart = 1 := by
  rcases canonicalFactor_iff.mp factor with ⟨rfl, free⟩ | canonical
  · have whole : ofFactor (b, number 1) = b := rfl
    rw [whole]
    cases b <;> first | rfl | exact absurd rfl free
  · rw [ofFactor_of_canonicalPower canonical]
    rfl

theorem collectCoefficient_partsOf {factors : List Factor}
    (each : ∀ b e, (b, e) ∈ factors → CanonicalFactor b e) :
    collectCoefficient (partsOf factors) = 1 := by
  induction factors with
  | nil => rfl
  | cons head rest ih =>
    obtain ⟨b, e⟩ := head
    have parts : partsOf ((b, e) :: rest) = ofFactor (b, e) :: partsOf rest := rfl
    rw [parts, collectCoefficient, coefficientPart_ofFactor (each b e (List.mem_cons_self ..)),
      ih fun c f member => each c f (List.mem_cons_of_mem _ member), one_mul]

theorem collectCoefficient_number (q : Rat) : collectCoefficient [number q] = q :=
  mul_one q

theorem exponentCoordinate_number (k : Option Expr) (b : Expr) (q : Rat) :
    exponentCoordinate k b ([number q].flatMap factorPart) = 0 :=
  rfl

theorem productOf_of_coefficient_zero {operands : List Expr}
    (vanishes : collectCoefficient operands = 0) :
    (productOf operands : Except Error Expr) = .ok (number 0) :=
  productOf_eq_ok_iff.mpr (.zero vanishes)

theorem productOf_of_mem_zero {operands : List Expr} (member : number 0 ∈ operands) :
    (productOf operands : Except Error Expr) = .ok (number 0) := by
  refine productOf_of_coefficient_zero ?_
  rw [collectCoefficient_eq]
  exact List.prod_eq_zero (List.mem_map.mpr ⟨number 0, member, rfl⟩)

/-- A product once its merged factors have settled. -/
theorem productOf_of_merged {operands : List Expr} {settled : Settled} {q : Rat}
    (coefficient : collectCoefficient operands ≠ 0)
    (settling : (settledFactors (mergedFactors operands) : Except Error Settled) = .ok settled)
    (total : collectCoefficient operands * settled.coefficient = q) :
    (productOf operands : Except Error Expr) =
      if q = 0 then .ok (number 0)
      else if settled.rewritten = [] then .ok (assembleProduct q settled.kept)
      else productOf (settled.rewritten ++ partsOf settled.kept ++ [number q]) := by
  rw [mergedFactors, settledFactors_nonzero] at settling
  exact productOf_of_settledFactors coefficient settling total

theorem exists_settledFactors_of_productOf {operands : List Expr} {r : Expr}
    (coefficient : collectCoefficient operands ≠ 0)
    (found : (productOf operands : Except Error Expr) = .ok r) :
    ∃ settled, (settledFactors (mergedFactors operands) : Except Error Settled) = .ok settled := by
  rw [productOf_eq_settled, if_neg coefficient] at found
  obtain ⟨settled, settling, _⟩ := bind_eq_ok_iff.mp found
  exact ⟨settled, settling⟩

/-- Factors in order, none of which has the exponent zero, are merged factors. -/
theorem mergedFactors_of_increasing {operands : List Expr} {factors : List Factor}
    (parts : operands.flatMap factorPart = factors) (increasing : Increasing factors)
    (nonzero : ∀ b e, (b, e) ∈ factors → e ≠ number 0) : mergedFactors operands = factors := by
  rw [mergedFactors, collectFactors, parts, foldr_insertFactor increasing, List.filter_eq_self]
  rintro ⟨b, e⟩ stored
  rw [Bool.not_eq_true', ← Bool.not_eq_true, isZero, isNumber_iff]
  exact nonzero b e stored

/-- A number times kept factors is put together in one pass. -/
theorem productOf_number_partsOf {q : Rat} (nonzero : q ≠ 0) {factors : List Factor}
    (increasing : Increasing factors)
    (each : ∀ b e, (b, e) ∈ factors → CanonicalFactor b e) :
    (productOf (number q :: partsOf factors) : Except Error Expr) =
      .ok (assembleProduct q factors) := by
  have parts : (number q :: partsOf factors).flatMap factorPart = factors :=
    flatMap_factorPart_partsOf each
  have merged := mergedFactors_of_increasing parts increasing fun b e stored =>
    (each b e stored).exponent
  have coefficient : collectCoefficient (number q :: partsOf factors) = q := by
    rw [collectCoefficient, collectCoefficient_partsOf each, mul_one]
    rfl
  have found := @productOf_of_canonicalFactors (number q :: partsOf factors)
    (merged.symm ▸ each)
  rwa [coefficient, merged, if_neg nonzero] at found

/-- What an expression contributes to a product: its coefficient, and for each base the coordinates
of its exponent. -/
def Expr.share (e : Expr) : Rat × Multiplicative (Option Expr → Expr → Rat) :=
  (e.coefficientPart, .ofAdd fun k b => exponentCoordinate k b e.factorPart)

theorem share_number_mul (p q : Rat) :
    (number (p * q)).share = (number p).share * (number q).share :=
  Prod.ext rfl (one_mul _).symm

theorem share_number_one : (number 1).share = 1 :=
  rfl

theorem prod_share (operands : List Expr) :
    (operands.map share).prod = (collectCoefficient operands,
      .ofAdd fun k b => exponentCoordinate k b (operands.flatMap factorPart)) := by
  induction operands with
  | nil => rfl
  | cons e rest ih =>
    rw [List.map_cons, List.prod_cons, ih]
    refine Prod.ext rfl (Multiplicative.toAdd.injective ?_)
    funext k b
    exact (exponentCoordinate_append k b e.factorPart (rest.flatMap factorPart)).symm

/-- The same coefficient, and of every base the same total exponent: then the product is the same. -/
def Alike (operands others : List Expr) : Prop :=
  (operands.map share).prod = (others.map share).prod

section Alike

variable {operands others : List Expr}

theorem alike_iff : Alike operands others ↔
    collectCoefficient operands = collectCoefficient others ∧
      ∀ k b, exponentCoordinate k b (operands.flatMap factorPart) =
        exponentCoordinate k b (others.flatMap factorPart) := by
  rw [Alike, prod_share, prod_share, Prod.ext_iff]
  refine and_congr_right fun _ => ⟨fun same k b => ?_, fun same => ?_⟩
  · exact congrFun (congrFun (congrArg Multiplicative.toAdd same) k) b
  · exact congrArg Multiplicative.ofAdd (funext fun k => funext fun b => same k b)

theorem alike_of_perm (perm : operands.Perm others) : Alike operands others :=
  (perm.map share).prod_eq

theorem Alike.symm (alike : Alike operands others) : Alike others operands :=
  Eq.symm alike

theorem Alike.append_left (alike : Alike operands others) (first : List Expr) :
    Alike (first ++ operands) (first ++ others) := by
  rw [Alike, List.map_append, List.map_append, List.prod_append, List.prod_append, alike]

theorem Alike.append_right (alike : Alike operands others) (rest : List Expr) :
    Alike (operands ++ rest) (others ++ rest) := by
  rw [Alike, List.map_append, List.map_append, List.prod_append, List.prod_append, alike]

theorem Alike.mergedFactors_eq (alike : Alike operands others)
    (canonical : ∀ e ∈ operands, e.Canonical) (canonical_others : ∀ e ∈ others, e.Canonical) :
    mergedFactors operands = mergedFactors others :=
  mergedFactors_ext canonical canonical_others (alike_iff.mp alike).2

theorem Alike.productOf_eq (alike : Alike operands others)
    (canonical : ∀ e ∈ operands, e.Canonical) (canonical_others : ∀ e ∈ others, e.Canonical) :
    (productOf operands : Except Error Expr) = productOf others :=
  productOf_congr (alike_iff.mp alike).1 (alike.mergedFactors_eq canonical canonical_others)

theorem alike_of_mergedFactors (canonical : ∀ e ∈ operands, e.Canonical)
    (canonical_others : ∀ e ∈ others, e.Canonical)
    (coefficient : collectCoefficient operands = collectCoefficient others)
    (merged : mergedFactors operands = mergedFactors others) : Alike operands others := by
  refine alike_iff.mpr ⟨coefficient, fun k b => ?_⟩
  rw [← exponentCoordinate_mergedFactors canonical, merged,
    exponentCoordinate_mergedFactors canonical_others]

end Alike

/-- The power of a base to its exponent, where there is one. -/
def evaluated (factor : Factor) : Expr :=
  (powerOf factor.1 factor.2 : Except Error Expr).toOption.getD (number 0)

theorem evaluated_eq {b e r : Expr} (found : (powerOf b e : Except Error Expr) = .ok r) :
    evaluated (b, e) = r := by
  rw [evaluated, found]
  rfl

/-- Factors settle exactly if all of them have powers. -/
theorem exists_settledFactors_iff {factors : List Factor}
    (nonzero : ∀ b e, (b, e) ∈ factors → e ≠ number 0) :
    (∃ settled, (settledFactors factors : Except Error Settled) = .ok settled) ↔
      ∀ b e, (b, e) ∈ factors → ∃ r, (powerOf b e : Except Error Expr) = .ok r := by
  induction factors with
  | nil => exact iff_of_true ⟨_, settledFactors_nil⟩ fun b e member => absurd member List.not_mem_nil
  | cons head rest ih =>
    obtain ⟨b, e⟩ := head
    have exponent : ¬ e.isZero = true := fun zero =>
      nonzero b e (List.mem_cons_self ..) (isNumber_iff.mp zero)
    have tail := ih fun c f member => nonzero c f (List.mem_cons_of_mem _ member)
    rw [settledFactors_cons, if_neg exponent]
    simp only [bind_eq_ok_iff]
    constructor
    · rintro ⟨_, r, power, settled, settles, _⟩ c f member
      rcases List.mem_cons.mp member with same | later
      · cases same
        exact ⟨r, power⟩
      · exact tail.mp ⟨settled, settles⟩ c f later
    · intro each
      obtain ⟨r, power⟩ := each b e (List.mem_cons_self ..)
      obtain ⟨settled, settles⟩ := tail.mpr fun c f member => each c f (List.mem_cons_of_mem _ member)
      exact ⟨_, r, power, settled, settles, rfl⟩

/-- The operands of the next pass. -/
def Settled.operands (settled : Settled) (coefficient : Rat) : List Expr :=
  settled.rewritten ++ partsOf settled.kept ++ [number (coefficient * settled.coefficient)]

theorem Settled.prod_share_operands (settled : Settled) (q : Rat) :
    ((settled.operands q).map share).prod =
      (settled.rewritten.map share).prod * ((partsOf settled.kept).map share).prod *
        ((number q).share * (number settled.coefficient).share) := by
  simp only [operands, List.map_append, List.prod_append, List.map_singleton, List.prod_singleton,
    share_number_mul]

/-- What becomes of a factor contributes to the next pass what its power is. -/
theorem Settled.prod_share_add (settled : Settled) {b e r : Expr} (canonical : r.Canonical) (q : Rat) :
    (((settled.add (b, e) r).operands q).map share).prod =
      r.share * ((settled.operands q).map share).prod := by
  rw [prod_share_operands, prod_share_operands]
  rcases Settled.add_cases (Eq.refl (settled.add (b, e) r)) with ⟨p, rfl, added⟩ |
    ⟨_, _, same, added⟩ | ⟨_, added⟩ <;> rw [added]
  · dsimp only
    rw [share_number_mul]
    ac_rfl
  · have whole : ofFactor (b, e) = r := same ▸ ofFactor_toFactor canonical
    have parts : partsOf ((b, e) :: settled.kept) = r :: partsOf settled.kept :=
      congrArg (· :: partsOf settled.kept) whole
    dsimp only
    rw [parts, List.map_cons, List.prod_cons]
    ac_rfl
  · dsimp only
    rw [List.map_cons, List.prod_cons]
    ac_rfl

/-- The next pass is one over the powers of the factors. -/
theorem SettleRun.prod_share {factors : List Factor} {settled : Settled}
    (run : SettleRun factors settled) (collected : Collected factors)
    (nonzero : ∀ b e, (b, e) ∈ factors → e ≠ number 0) (q : Rat) :
    ((settled.operands q).map share).prod =
      (number q).share * (factors.map fun factor => (evaluated factor).share).prod := by
  induction factors generalizing settled with
  | nil =>
    cases run
    simp [Settled.prod_share_operands, partsOf, share_number_one]
  | cons factor rest ih =>
    cases run with
    | dropped _ => exact absurd rfl (nonzero _ _ (List.mem_cons_self ..))
    | @raised b e r _ settled exponent power tail =>
      have canonical := power.canonical (collected.bases_canonical b e (List.mem_cons_self ..))
        (collected.exponents_canonical b e (List.mem_cons_self ..))
      rw [settled.prod_share_add canonical, ih tail collected.tail fun c f member =>
        nonzero c f (List.mem_cons_of_mem _ member), List.map_cons, List.prod_cons,
        evaluated_eq (powerOf_eq_ok_iff.mpr power)]
      ac_rfl

section Pass

variable {operands : List Expr} {settled : Settled} (canonical : ∀ e ∈ operands, e.Canonical)
  (settles : (settledFactors (mergedFactors operands) : Except Error Settled) = .ok settled)

include canonical settles

theorem settled_form : settled.Canonical (mergedFactors operands) :=
  (settledFactors_eq_ok_iff.mp settles).canonical (merged_mergedFactors canonical).collected

theorem canonical_settledOperands (q : Rat) : ∀ e ∈ settled.operands q, e.Canonical :=
  (settled_form canonical settles).again (merged_mergedFactors canonical).collected

theorem prod_share_settledOperands (q : Rat) :
    ((settled.operands q).map share).prod = (number q).share *
      ((mergedFactors operands).map fun factor => (evaluated factor).share).prod :=
  have merged := merged_mergedFactors canonical
  (settledFactors_eq_ok_iff.mp settles).prod_share merged.collected merged.nonzero q

theorem collectCoefficient_settledOperands (q : Rat) : collectCoefficient (settled.operands q) =
    collectCoefficient settled.rewritten * (q * settled.coefficient) := by
  simp only [Settled.operands, collectCoefficient_append, collectCoefficient_number, mul_one,
    collectCoefficient_partsOf (settled_form canonical settles).kept]

/-- A product may as well begin with its second pass. -/
theorem productOf_settledOperands :
    (productOf operands : Except Error Expr) =
      productOf (settled.operands (collectCoefficient operands)) := by
  have form := settled_form canonical settles
  have total := collectCoefficient_settledOperands canonical settles (collectCoefficient operands)
  by_cases coefficient : collectCoefficient operands = 0
  · rw [productOf_of_coefficient_zero coefficient, productOf_of_coefficient_zero]
    rw [total, coefficient, zero_mul, mul_zero]
  rw [productOf_of_merged coefficient settles rfl]
  split
  · rename_i vanishes
    rw [productOf_of_coefficient_zero (total.trans (by rw [vanishes, mul_zero]))]
  · rename_i nonzero
    split
    · rename_i done
      have kept := (merged_mergedFactors canonical).collected.sublist form.sublist
      have perm : (settled.operands (collectCoefficient operands)).Perm
          (number (collectCoefficient operands * settled.coefficient) :: partsOf settled.kept) := by
        rw [Settled.operands, done, List.nil_append]
        exact List.perm_append_singleton ..
      rw [productOf_perm (canonical_settledOperands canonical settles _) perm,
        productOf_number_partsOf nonzero kept.increasing form.kept]
    · rfl

end Pass

theorem powerOf_zero_eq {b r : Expr} (found : (powerOf b (number 0) : Except Error Expr) = .ok r) :
    r = number 1 := by
  by_cases zero : b = number 0
  · subst zero
    rw [powerOf_zero_number] at found
    obtain ⟨q, refused, _⟩ := map_eq_ok_iff.mp found
    cases refused
  · rw [powerOf_exponent_zero zero] at found
    exact (Except.ok.inj found).symm

/-- The powers of a base to two exponents multiply to its power to their sum. -/
def Splits (b e f : Expr) : Prop :=
  ∃ r s t, (powerOf b e : Except Error Expr) = .ok r ∧ (powerOf b f : Except Error Expr) = .ok s ∧
    (powerOf b (sumOf [e, f]) : Except Error Expr) = .ok t ∧
    collectCoefficient [r, s] = collectCoefficient [t] ∧ mergedFactors [r, s] = mergedFactors [t]

theorem Splits.share_mul {b e f t : Expr} (splits : Splits b e f) (base : b.Canonical)
    (left : e.Canonical) (right : f.Canonical)
    (whole : (powerOf b (sumOf [e, f]) : Except Error Expr) = .ok t) :
    t.share = (evaluated (b, e)).share * (evaluated (b, f)).share := by
  obtain ⟨r, s, t', raised, raised', total, coefficient, merged⟩ := splits
  obtain rfl : t = t' := Except.ok.inj (whole.symm.trans total)
  have canonical := canonical_pair (canonical_powerOf raised base left)
    (canonical_powerOf raised' base right)
  have canonical_total := canonical_powerOf whole base (canonical_sumOf_pair left right)
  have alike : Alike [r, s] [t] := alike_of_mergedFactors canonical
    (fun e member => List.mem_singleton.mp member ▸ canonical_total) coefficient merged
  rw [evaluated_eq raised, evaluated_eq raised']
  simpa [Alike] using alike.symm

theorem Merged.exponentsOf_eq {factors : List Factor} (merged : Merged factors) {b e : Expr}
    (member : (b, e) ∈ factors) : exponentsOf b factors = [e] :=
  merged.collected.increasing.exponentsOf_eq member

section Union

variable {whole first second : List Factor} (merged : Merged whole) (merged_first : Merged first)
  (merged_second : Merged second)
  (total : ∀ k b, exponentCoordinate k b whole =
    exponentCoordinate k b first + exponentCoordinate k b second)

include merged merged_first merged_second total

/-- The exponent of a base in a union of merged factors. -/
theorem Merged.exponentsOf_union (b : Expr) :
    ((∀ e, (b, e) ∉ first) ∧ exponentsOf b whole = exponentsOf b second) ∨
      ((∀ f, (b, f) ∉ second) ∧ exponentsOf b whole = exponentsOf b first) ∨
      ∃ e f, (b, e) ∈ first ∧ (b, f) ∈ second ∧
        exponentsOf b whole = if sumOf [e, f] = number 0 then [] else [sumOf [e, f]] := by
  have alike_of {others : List Factor} (merged_others : Merged others)
      (same : ∀ k, exponentCoordinate k b whole = exponentCoordinate k b others) :
      exponentsOf b whole = exponentsOf b others := by
    have iff (e : Expr) : (b, e) ∈ whole ↔ (b, e) ∈ others := by
      simp only [merged.mem_iff, merged_others.mem_iff, same]
    by_cases present : ∃ e, (b, e) ∈ whole
    · obtain ⟨e, member⟩ := present
      rw [merged.exponentsOf_eq member, merged_others.exponentsOf_eq ((iff e).mp member)]
    · have absent (e : Expr) : (b, e) ∉ whole := fun member => present ⟨e, member⟩
      rw [exponentsOf_eq_nil absent, exponentsOf_eq_nil fun e member => absent e ((iff e).mpr member)]
  by_cases left : ∃ e, (b, e) ∈ first
  · obtain ⟨e, member⟩ := left
    by_cases right : ∃ f, (b, f) ∈ second
    · obtain ⟨f, member'⟩ := right
      have canonical := merged_first.collected.exponents_canonical b e member
      have canonical' := merged_second.collected.exponents_canonical b f member'
      have sum (k : Option Expr) :
          exponentCoordinate k b whole = coordinate k (sumOf [e, f]) := by
        rw [total, merged_first.collected.increasing.exponentCoordinate_eq k member,
          merged_second.collected.increasing.exponentCoordinate_eq k member',
          coordinate_sumOf_pair canonical canonical']
      refine .inr (.inr ⟨e, f, member, member', ?_⟩)
      split
      · rename_i zero
        refine exponentsOf_eq_nil fun g stored => ?_
        obtain ⟨exponent, nonzero, same⟩ := merged.mem_iff.mp stored
        refine nonzero (exponent.ext (canonical_number 0) fun k => ?_)
        rw [← same, sum, zero]
      · rename_i nonzero
        exact merged.exponentsOf_eq
          (merged.mem_iff.mpr ⟨canonical_sumOf_pair canonical canonical', nonzero, sum⟩)
    · have absent (f : Expr) : (b, f) ∉ second := fun stored => right ⟨f, stored⟩
      refine .inr (.inl ⟨absent, alike_of merged_first fun k => ?_⟩)
      rw [total, exponentCoordinate_eq_zero k absent, add_zero]
  · have absent (e : Expr) : (b, e) ∉ first := fun stored => left ⟨e, stored⟩
    refine .inl ⟨absent, alike_of merged_second fun k => ?_⟩
    rw [total, exponentCoordinate_eq_zero k absent, zero_add]

variable (splits : ∀ b e f, (b, e) ∈ first → (b, f) ∈ second → Splits b e f)

include splits

/-- Where exponents of shared bases split, the powers of a union are those of its parts. -/
theorem Merged.prod_share_union :
    (whole.map fun factor => (evaluated factor).share).prod =
      (first.map fun factor => (evaluated factor).share).prod *
        (second.map fun factor => (evaluated factor).share).prod := by
  have covered (b e : Expr) (stored : (b, e) ∈ whole ++ (first ++ second)) :
      b ∈ ((whole ++ (first ++ second)).map Prod.fst).toFinset :=
    List.mem_toFinset.mpr (List.mem_map_of_mem stored)
  rw [prod_map_eq_prod_bases _ fun b e stored => covered b e (List.mem_append_left _ stored),
    prod_map_eq_prod_bases _ fun b e stored =>
      covered b e (List.mem_append_right _ (List.mem_append_left _ stored)),
    prod_map_eq_prod_bases _ fun b e stored =>
      covered b e (List.mem_append_right _ (List.mem_append_right _ stored)),
    ← Finset.prod_mul_distrib]
  refine Finset.prod_congr rfl fun b _ => ?_
  rcases merged.exponentsOf_union merged_first merged_second total b with ⟨absent, same⟩ |
    ⟨absent, same⟩ | ⟨e, f, member, member', same⟩
  · rw [same, exponentsOf_eq_nil absent, List.map_nil, List.prod_nil, one_mul]
  · rw [same, exponentsOf_eq_nil absent, List.map_nil, List.prod_nil, mul_one]
  · have base := merged_first.collected.bases_canonical b e member
    have left := merged_first.collected.exponents_canonical b e member
    have right := merged_second.collected.exponents_canonical b f member'
    have split_up := splits b e f member member'
    have ⟨_, _, t, _, _, found, _⟩ := split_up
    have share := split_up.share_mul base left right found
    rw [same, merged_first.exponentsOf_eq member, merged_second.exponentsOf_eq member',
      List.map_singleton, List.map_singleton, List.prod_singleton, List.prod_singleton, ← share]
    split
    · rename_i zero
      rw [zero] at found
      rw [powerOf_zero_eq found]
      rfl
    · rw [List.map_singleton, List.prod_singleton, evaluated_eq found]

/-- Then the parts have powers exactly if the union has. -/
theorem Merged.powers_union
    (powers : ∀ b e, (b, e) ∈ first → ∃ r, (powerOf b e : Except Error Expr) = .ok r) :
    (∀ b e, (b, e) ∈ whole → ∃ r, (powerOf b e : Except Error Expr) = .ok r) ↔
      ∀ b e, (b, e) ∈ second → ∃ r, (powerOf b e : Except Error Expr) = .ok r := by
  constructor
  · intro powers_whole b e stored
    rcases merged.exponentsOf_union merged_first merged_second total b with ⟨_, same⟩ |
      ⟨absent, _⟩ | ⟨g, f, member, member', _⟩
    · exact powers_whole b e
        (mem_exponentsOf_iff.mp (same ▸ mem_exponentsOf_iff.mpr stored))
    · exact absurd stored (absent e)
    · obtain ⟨_, s, _, _, found, _⟩ := splits b g e member stored
      exact ⟨s, found⟩
  · intro powers_second b e stored
    have among := mem_exponentsOf_iff.mpr stored
    rcases merged.exponentsOf_union merged_first merged_second total b with ⟨_, same⟩ |
      ⟨_, same⟩ | ⟨g, f, member, member', same⟩ <;> rw [same] at among
    · exact powers_second b e (mem_exponentsOf_iff.mp among)
    · exact powers b e (mem_exponentsOf_iff.mp among)
    · obtain ⟨_, _, t, _, _, found, _⟩ := splits b g f member member'
      split at among
      · cases among
      · cases List.mem_singleton.mp among
        exact ⟨t, found⟩

end Union

end SymbolicAlgebra
