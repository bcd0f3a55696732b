import SymbolicAlgebra.Proofs.RaisedApart

namespace SymbolicAlgebra

open SymbolicAlgebra.Expr

mutual

/-- The law of powers of powers holds for the inner exponent, unless that opens a product. Then it has
to hold for the factors, and the powers that they come to have to be raised apart. -/
inductive Composable (n : Int) : Expr → Expr → Prop where
  | closed {b e} (shape : ∀ m : Int, e = number m → m ≠ 0 → m ≠ 1 →
      (∀ c f, b ≠ power c f) ∧ ∀ q factors, b ≠ product q factors) : Composable n b e
  | power {c f} {m : Int} (inner : Composable n c (f.scale m)) :
      Composable n (power c f) (number m)
  | product {q factors operands} {m : Int}
      (inner : ∀ b e, (b, e) ∈ factors → Composable n b (e.scale m))
      (raised : (powersOf factors m : Except Error (List Expr)) = .ok operands)
      (apart : RaisedApart n (number (q ^ m) :: operands)) :
      Composable n (product q factors) (number m)

/-- A product can be raised to a power before or after it is multiplied out: a number in it is zero,
or it is put together at once and no number is multiplied out over a lone sum, or the merged factors
have powers for which the law of powers of powers holds, and these make up the next pass. -/
inductive RaisedApart (n : Int) : List Expr → Prop where
  | zero {operands} (vanishes : collectCoefficient operands = 0) : RaisedApart n operands
  | once {operands} (parts : PowersApart n operands)
      (unchanged : ∀ b e, (b, e) ∈ mergedFactors operands → CanonicalFactor b e)
      (undistributed : ∀ c terms, mergedFactors operands = [(sum c terms, number 1)] →
        collectCoefficient operands = 1) : RaisedApart n operands
  | again {operands} (parts : PowersApart n operands)
      (inner : ∀ b e, (b, e) ∈ mergedFactors operands → Composable n b e)
      (rest : RaisedApart n
        (number (collectCoefficient operands) :: (mergedFactors operands).map evaluated)) :
      RaisedApart n operands

end

theorem zeroPower_eq_ok {q r : Rat} (found : zeroPower q = .ok r) : r = 0 := by
  unfold zeroPower at found
  split at found
  · exact (Except.ok.inj found).symm
  · cases found

theorem powerOf_one_base (e : Expr) :
    (powerOf (number 1) e : Except Error Expr) = .ok (number 1) := by
  by_cases zero : e = number 0
  · rw [zero, powerOf_exponent_zero (by simp)]
  by_cases one : e = number 1
  · rw [one, powerOf_one]
  · exact powerOf_base_one zero one

theorem powerOf_power_integer {c f : Expr} {n : Int} (canonical : (power c f).Canonical)
    (nonzero : n ≠ 0) :
    (powerOf (power c f) (number n) : Except Error Expr) = powerOf c (f.scale n) := by
  cases canonical with
  | power form base exponent =>
    by_cases one : n = 1
    · subst one
      rw [Int.cast_one, powerOf_one, scale_one, powerOf_of_canonicalPower form]
    · rw [powerOf_power nonzero one, productOf_number_right n exponent]
      rfl

section Laws

variable {n : Int} (nonzero : n ≠ 0) {b e r s l : Expr} (base : b.Canonical)
  (inner : (powerOf b e : Except Error Expr) = .ok r)
  (whole : (powerOf b (e.scale n) : Except Error Expr) = .ok s)
  (power : factorwisePower n r = .ok l)

include inner whole power

theorem power_of_exponent_zero (zero : e = number 0) : l = s := by
  subst zero
  have unit := factorwisePower_number n 1
  rw [scale_number, mul_zero] at whole
  rw [powerOf_zero_eq whole]
  rw [powerOf_zero_eq inner, unit, one_zpow] at power
  exact (Except.ok.inj power).symm

include base

/-- A power that stays as it is takes the outer exponent into its own. -/
theorem power_of_kept (exponent : e.Canonical) (kept : CanonicalPower b e)
    (same : r = .power b e) : l = s := by
  subst same
  have canonical := canonical_powerOf whole base (exponent.scale n)
  have raised := factorwisePower_lone (.power kept base exponent) rfl rfl whole canonical
  exact Except.ok.inj (power.symm.trans raised)

include nonzero

theorem power_of_exponent_one (one : e = number 1) : l = s := by
  subst one
  rw [powerOf_one] at inner
  cases inner
  rw [scale_number, mul_one] at whole
  exact Except.ok.inj (power.symm.trans (factorwisePower_of_powerOf base nonzero whole))

omit base in
theorem power_of_zero_base {q : Rat} (zero_base : b = number 0) (rational : e = number q) :
    l = s := by
  subst zero_base rational
  rw [powerOf_zero_number] at inner
  rw [scale_number, powerOf_zero_number] at whole
  obtain ⟨p, inner_power, rfl⟩ := map_eq_ok_iff.mp inner
  obtain ⟨p', whole_power, rfl⟩ := map_eq_ok_iff.mp whole
  have multiplied := factorwisePower_number n p
  rw [power] at multiplied
  rw [Except.ok.inj multiplied, zeroPower_eq_ok inner_power, zeroPower_eq_ok whole_power,
    zero_zpow n nonzero]

omit base in
theorem power_of_numbers {q : Rat} {m : Int} (number_base : b = number q) (integer : e = number m)
    (other : m ≠ 0) : l = s := by
  subst number_base integer
  rw [scale_integers, powerOf_numbers q (mul_ne_zero nonzero other)] at whole
  rw [powerOf_numbers q other] at inner
  obtain ⟨p, inner_power, rfl⟩ := map_eq_ok_iff.mp inner
  obtain ⟨p', whole_power, rfl⟩ := map_eq_ok_iff.mp whole
  have multiplied := factorwisePower_number n p
  rw [power] at multiplied
  rw [Except.ok.inj multiplied, integerPower_eq_ok inner_power,
    integerPower_eq_ok whole_power, mul_comm n m, zpow_mul]

end Laws

/-- Where the law holds for every factor, the powers of the powers of the factors are their powers to
the product of the exponents. -/
theorem forall₂_raisedParts {n m : Int} {factors : List Factor}
    (exponents : ∀ b e, (b, e) ∈ factors → e.Canonical)
    (exists_inner : ∀ b e, (b, e) ∈ factors →
      ∃ r, (powerOf b (e.scale m) : Except Error Expr) = .ok r)
    (exists_whole : ∀ b e, (b, e) ∈ factors →
      ∃ r, (powerOf b (e.scale ((n * m : Int) : Rat)) : Except Error Expr) = .ok r)
    (law : ∀ b e, (b, e) ∈ factors → ∀ {r s l},
      (powerOf b (e.scale m) : Except Error Expr) = .ok r →
      (powerOf b ((e.scale m).scale n) : Except Error Expr) = .ok s →
      factorwisePower n r = .ok l → l = s) :
    List.Forall₂ (fun e s => ∀ r, factorwisePower n e = .ok r → r = s)
      (factors.map (raisedPart m)) (factors.map (raisedPart (n * m))) := by
  refine List.forall₂_map_left_iff.mpr (List.forall₂_map_right_iff.mpr (List.forall₂_same.mpr ?_))
  rintro ⟨b, e⟩ stored t raised_part
  obtain ⟨u, inner_part⟩ := exists_inner b e stored
  obtain ⟨v, whole_part⟩ := exists_whole b e stored
  rw [raisedPart_eq inner_part] at raised_part
  rw [raisedPart_eq whole_part]
  rw [Int.cast_mul, ← scale_scale _ _ (exponents b e stored)] at whole_part
  exact law b e stored inner_part whole_part raised_part

theorem exists_of_forall₂ {α β : Type} {R : α → β → Prop} {as : List α} {bs : List β}
    (related : List.Forall₂ R as bs) {a : α} (member : a ∈ as) : ∃ b ∈ bs, R a b := by
  induction related with
  | nil => cases member
  | @cons c d _ _ here later ih =>
    rcases List.mem_cons.mp member with rfl | within
    · exact ⟨d, List.mem_cons_self .., here⟩
    · obtain ⟨b, stored, relation⟩ := ih within
      exact ⟨b, List.mem_cons_of_mem _ stored, relation⟩

theorem zero_mem_of_collectCoefficient {operands : List Expr}
    (canonical : ∀ e ∈ operands, e.Canonical) (vanishes : collectCoefficient operands = 0) :
    number 0 ∈ operands := by
  rw [collectCoefficient_eq] at vanishes
  obtain ⟨e, member, zero⟩ := List.mem_map.mp (List.prod_eq_zero_iff.mp vanishes)
  rwa [← eq_zero_of_coefficientPart (canonical e member) zero]

section Products

variable {n : Int} (nonzero : n ≠ 0) {operands powers : List Expr} {p l : Expr}
  (canonical : ∀ e ∈ operands, e.Canonical)
  (found : (productOf operands : Except Error Expr) = .ok p) (power : factorwisePower n p = .ok l)

include canonical found power

/-- The power of a product that vanishes is the product of the powers of its operands. -/
theorem productOf_powers_of_zero (nonzero : n ≠ 0) (vanishes : collectCoefficient operands = 0)
    (each : List.Forall₂ (fun e s => ∀ r, factorwisePower n e = .ok r → r = s) operands powers) :
    (productOf powers : Except Error Expr) = .ok l := by
  obtain ⟨s, among, zero_power⟩ :=
    exists_of_forall₂ each (zero_mem_of_collectCoefficient canonical vanishes)
  have raised := factorwisePower_number n 0
  rw [zero_zpow n nonzero] at raised
  rw [productOf_of_coefficient_zero vanishes] at found
  cases found
  rw [power] at raised
  cases raised
  rw [← zero_power _ power] at among
  exact productOf_of_mem_zero among

/-- What a product that is put together at once comes to when it is raised. -/
theorem productOf_mergedPowers_of_unchanged (coefficient : collectCoefficient operands ≠ 0)
    (unchanged : ∀ b e, (b, e) ∈ mergedFactors operands → CanonicalFactor b e)
    (undistributed : ∀ c terms, mergedFactors operands = [(sum c terms, number 1)] →
      collectCoefficient operands = 1) :
    (productOf (number (collectCoefficient operands ^ n) ::
      (mergedFactors operands).map (raisedPart n)) : Except Error Expr) = .ok l := by
  have whole := productOf_of_canonicalFactors unchanged
  rw [if_neg coefficient, found] at whole
  obtain ⟨number_part, factor_part⟩ := parts_assembleProduct coefficient
    (merged_mergedFactors canonical).collected unchanged undistributed
  rw [← Except.ok.inj whole] at number_part factor_part
  have product := ((factorwisePower_eq_ok_iff (canonical_productOf found canonical)).mp power).2
  rwa [number_part, factor_part] at product

omit power in
/-- A product is that of the powers of its merged factors. -/
theorem productOf_evaluated (coefficient : collectCoefficient operands ≠ 0) :
    (∀ b e, (b, e) ∈ mergedFactors operands → ∃ r, (powerOf b e : Except Error Expr) = .ok r) ∧
      (∀ e ∈ (mergedFactors operands).map evaluated, e.Canonical) ∧
      (productOf (number (collectCoefficient operands) :: (mergedFactors operands).map evaluated) :
        Except Error Expr) = .ok p := by
  have merged := merged_mergedFactors canonical
  obtain ⟨settled, settles⟩ := exists_settledFactors_of_productOf coefficient found
  have powers := (exists_settledFactors_iff merged.nonzero).mp ⟨settled, settles⟩
  have canonical_powers : ∀ e ∈ (mergedFactors operands).map evaluated, e.Canonical := by
    intro r member
    obtain ⟨⟨b, e⟩, stored, rfl⟩ := List.mem_map.mp member
    obtain ⟨r, power⟩ := powers b e stored
    rw [evaluated_eq power]
    exact canonical_powerOf power (merged.collected.bases_canonical b e stored)
      (merged.collected.exponents_canonical b e stored)
  refine ⟨powers, canonical_powers, ?_⟩
  rw [← found, productOf_settledOperands canonical settles]
  refine Alike.productOf_eq ?_ (List.forall_mem_cons.mpr ⟨canonical_number _, canonical_powers⟩)
    (canonical_settledOperands canonical settles _)
  rw [Alike, prod_share_settledOperands canonical settles, List.map_cons, List.prod_cons,
    List.map_map]
  rfl

end Products

mutual

/-- The power of a product is the product of the powers of its operands, if these are raised apart. -/
theorem RaisedApart.productOf_powers {n : Int} (nonzero : n ≠ 0) : ∀ {operands : List Expr},
    RaisedApart n operands → (∀ e ∈ operands, e.Canonical) → ∀ {powers : List Expr} {p l : Expr},
    (productOf operands : Except Error Expr) = .ok p → factorwisePower n p = .ok l →
    List.Forall₂ (fun e s => ∀ r, factorwisePower n e = .ok r → r = s) operands powers →
    (productOf powers : Except Error Expr) = .ok l
  | _, .zero vanishes, canonical, _, _, _, found, outer, each =>
    productOf_powers_of_zero canonical found outer nonzero vanishes each
  | operands, .once parts unchanged undistributed, canonical, _, _, _, found, outer, each => by
    by_cases coefficient : collectCoefficient operands = 0
    · exact productOf_powers_of_zero canonical found outer nonzero coefficient each
    obtain ⟨w, whole⟩ := parts.whole
    rw [parts.productOf_powers canonical whole each, ← parts.productOf_mergedPowers canonical whole]
    exact productOf_mergedPowers_of_unchanged canonical found outer coefficient unchanged
      undistributed
  | operands, .again parts inner rest, canonical, _, _, _, found, outer, each => by
    by_cases coefficient : collectCoefficient operands = 0
    · exact productOf_powers_of_zero canonical found outer nonzero coefficient each
    obtain ⟨w, whole⟩ := parts.whole
    rw [parts.productOf_powers canonical whole each, ← parts.productOf_mergedPowers canonical whole]
    have collected := (merged_mergedFactors canonical).collected
    obtain ⟨powers, canonical_powers, next⟩ := productOf_evaluated canonical found coefficient
    refine rest.productOf_powers nonzero
      (List.forall_mem_cons.mpr ⟨canonical_number _, canonical_powers⟩) next outer ?_
    refine .cons (fun r raised => Except.ok.inj (raised.symm.trans (factorwisePower_number ..))) ?_
    refine List.forall₂_map_left_iff.mpr (List.forall₂_map_right_iff.mpr
      (List.forall₂_same.mpr ?_))
    rintro ⟨b, e⟩ stored r raised
    obtain ⟨t, evaluation⟩ := powers b e stored
    obtain ⟨s, raised_whole⟩ := parts.merged b e stored
    rw [evaluated_eq evaluation] at raised
    rw [raisedPart_eq raised_whole]
    exact (inner b e stored).factorwisePower_eq nonzero (collected.bases_canonical b e stored)
      (collected.exponents_canonical b e stored) evaluation raised_whole raised
termination_by structural _ apart => apart

theorem Composable.factorwisePower_eq {n : Int} (nonzero : n ≠ 0) : ∀ {b e : Expr},
    Composable n b e → b.Canonical → e.Canonical → ∀ {r s l : Expr},
    (powerOf b e : Except Error Expr) = .ok r →
    (powerOf b (e.scale n) : Except Error Expr) = .ok s → factorwisePower n r = .ok l → l = s
  | b, e, .closed shape, base, exponent, _, _, _, inner, whole, outer => by
    cases PowerRun.of_powerOf inner with
    | zeroBase found => exact power_of_zero_base nonzero inner whole outer rfl rfl
    | zeroExponent _ => exact power_of_exponent_zero inner whole outer rfl
    | oneExponent _ => exact power_of_exponent_one nonzero base inner whole outer rfl
    | oneBase _ _ =>
      have unit := factorwisePower_number n 1
      rw [outer, one_zpow] at unit
      exact Except.ok.inj (unit.trans ((powerOf_one_base _).symm.trans whole))
    | exact _ _ zero _ _ => exact power_of_numbers nonzero inner whole outer rfl rfl zero
    | nested zero one _ _ => exact absurd rfl ((shape _ rfl zero one).1 _ _)
    | distributed zero one _ _ _ => exact absurd rfl ((shape _ rfl zero one).2 _ _)
    | kept canonical => exact power_of_kept base inner whole outer exponent canonical rfl
  | _, _, @Composable.power _ c f m composable, base, _, _, _, _, inner, whole, outer => by
    by_cases zero : m = 0
    · exact power_of_exponent_zero inner whole outer (by rw [zero, Int.cast_zero])
    rw [powerOf_power_integer base zero] at inner
    rw [scale_integers, powerOf_power_integer base (mul_ne_zero nonzero zero), Int.cast_mul] at whole
    cases base with
    | power _ inner_base inner_exponent =>
      rw [← scale_scale _ _ inner_exponent] at whole
      exact composable.factorwisePower_eq nonzero inner_base (inner_exponent.scale m) inner whole
        outer
  | _, _, @Composable.product _ q factors operands m composable raised apart, base, _, _, _, _,
      inner, whole, outer => by
    by_cases zero : m = 0
    · exact power_of_exponent_zero inner whole outer (by rw [zero, Int.cast_zero])
    by_cases one : m = 1
    · exact power_of_exponent_one nonzero base inner whole outer (by rw [one, Int.cast_one])
    have kept := (canonical_product_iff.mp base).2.2
    rw [powerOf_product zero one] at inner
    obtain ⟨p, number_power, inner⟩ := bind_eq_ok_iff.mp inner
    rw [raised] at inner
    obtain rfl := exactPower_eq_ok number_power
    obtain ⟨powers, raised_whole, assembled⟩ := bind_eq_ok_iff.mp (factorwisePower_of_powerOf base
      (mul_ne_zero nonzero zero) (scale_integers n m ▸ whole))
    have exponents := kept.exponents_canonical
    -- The operands stay a variable, so that what is raised apart is the part that `apart` was built on.
    obtain ⟨exists_inner, parts⟩ := (powersOf_eq_ok_iff exponents).mp raised
    obtain ⟨exists_whole, rfl⟩ := (powersOf_eq_ok_iff exponents).mp raised_whole
    have canonical := canonical_raisedParts (fun b e stored =>
      ⟨kept.bases_canonical b e stored, exponents b e stored⟩) exists_inner
    have each := forall₂_raisedParts exponents exists_inner exists_whole fun b e stored =>
      (composable b e stored).factorwisePower_eq nonzero (kept.bases_canonical b e stored)
        ((exponents b e stored).scale m)
    rw [parts] at canonical each
    have multiplied := apart.productOf_powers nonzero
      (List.forall_mem_cons.mpr ⟨canonical_number _, canonical⟩) inner outer
      (.cons (fun r number_power => Except.ok.inj (number_power.symm.trans
        (factorwisePower_number ..))) each)
    rw [← zpow_mul, mul_comm] at multiplied
    exact Except.ok.inj (multiplied.symm.trans assembled)
termination_by structural _ _ composable => composable

end

/-- Powers of symbols, functions and formal derivatives can be raised before or after they are
multiplied out. -/
theorem raisedApart_of_indeterminates {n : Int} (nonzero : n ≠ 0) {operands : List Expr}
    (each : ∀ e ∈ operands, e.OverIndeterminates) : RaisedApart n operands :=
  .once (powersApart_of_indeterminates nonzero each)
    (fun _ _ stored => (canonicalFactor_of_indeterminates each stored).2.2) fun _ _ lone =>
      absurd (canonicalFactor_of_indeterminates each (lone ▸ List.mem_singleton_self _)).1 id

theorem canonical_root {b : Expr} {q : Rat} (base : b.Canonical)
    (found : (powerOf b (number q) : Except Error Expr) = .ok (power b (number q))) :
    (power b (number q)).Canonical :=
  canonical_powerOf found base (canonical_number q)

end SymbolicAlgebra
