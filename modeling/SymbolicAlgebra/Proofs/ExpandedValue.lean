import SymbolicAlgebra.Proofs.Assignments
import SymbolicAlgebra.Proofs.Distribution

namespace SymbolicAlgebra

open SymbolicAlgebra.Expr

variable {K : Type*} [Field K] {v : Expr → K}

/-- An expression that can be worked with at the assignment. -/
structure Assigned (v : Expr → K) (e : Expr) : Prop where
  canonical : e.Canonical
  each : e.Each (IntegerPower v)

theorem assigned_number (q : Rat) : Assigned v (number q) :=
  ⟨canonical_number q, each_number q⟩

/-- The expansion, if there is one, is defined at the assignment and has the same value. -/
def Expr.KeepsValue (v : Expr → K) (e : Expr) : Prop :=
  ∀ r, (expand e : Except Error Expr) = .ok r → Assigned v r ∧ r.valueAt v = e.valueAt v

theorem keepsValue_of_expand_eq_self {e : Expr} (whole : Assigned v e)
    (same : (expand e : Except Error Expr) = .ok e) : e.KeepsValue v := by
  intro r found
  cases same.symm.trans found
  exact ⟨whole, rfl⟩

variable [CharZero K]

/-- The value is the sum of the values of the parts that products are distributed over. -/
theorem valueAt_eq_sum {e : Expr} (canonical : e.Canonical) :
    e.valueAt v = ((summandsOf e).map (valueAt v)).sum := by
  have total := (assigned v).value_sumOf (summandsOf e)
  rw [sumOf_summandsOf canonical] at total
  exact total

section Distribution

variable {a b r : Expr}

/-- Distribution multiplies the values. -/
theorem Assigned.of_distribute (left : Assigned v a) (right : Assigned v b)
    (found : (distribute a b : Except Error Expr) = .ok r) :
    Assigned v r ∧ r.valueAt v = a.valueAt v * b.valueAt v := by
  have whole : Assigned v r := ⟨canonical_distribute found left.canonical right.canonical,
    raisingLaws_integerPower.each_distribute found left.canonical right.canonical left.each
      right.each⟩
  refine ⟨whole, ?_⟩
  obtain ⟨products, multiplied, found⟩ := bind_eq_ok_iff.mp found
  have values : products.map (valueAt v) =
      ((summandsOf a).flatMap fun l => (summandsOf b).map fun r => [l, r]).map
        fun pair => (pair.map (valueAt v)).prod := by
    refine map_eq_map_of_mapM multiplied fun pair member product result => ?_
    obtain ⟨l, first, member⟩ := List.mem_flatMap.mp member
    obtain ⟨r, second, rfl⟩ := List.mem_map.mp member
    refine valueAt_productOf (canonical_pair (canonical_summandsOf left.canonical l first)
      (canonical_summandsOf right.canonical r second)) ?_ result
    simp only [List.forall_mem_cons, List.not_mem_nil, false_imp_iff, implies_true, and_true]
    exact ⟨(raisingLaws_integerPower.each_summandsOf left.canonical left.each l first).1,
      (raisingLaws_integerPower.each_summandsOf right.canonical right.each r second).1⟩
  cases found
  rw [valueAt_eq_sum left.canonical, valueAt_eq_sum right.canonical, ← sum_pairs, ← values]
  exact (assigned v).value_sumOf products

theorem Assigned.of_distributeTimes (base : Assigned v b) {n : Nat} (start : Assigned v a)
    (found : (distributeTimes b n a : Except Error Expr) = .ok r) :
    Assigned v r ∧ r.valueAt v = a.valueAt v * b.valueAt v ^ n := by
  induction n generalizing a with
  | zero =>
    cases found
    exact ⟨start, by rw [pow_zero, mul_one]⟩
  | succ n ih =>
    obtain ⟨next, distributed, found⟩ := bind_eq_ok_iff.mp found
    obtain ⟨whole, value⟩ := start.of_distribute base distributed
    obtain ⟨result, value'⟩ := ih whole found
    exact ⟨result, by rw [value', value, mul_assoc, pow_succ']⟩

theorem Assigned.of_expandPower (base : Assigned v b) {n : Int} (positive : 0 < n)
    (found : (expandPower b n.toNat : Except Error Expr) = .ok r) :
    Assigned v r ∧ r.valueAt v = b.valueAt v ^ n := by
  unfold expandPower at found
  split at found
  · cases found
  · rw [observe_bind] at found
    obtain ⟨whole, value⟩ := base.of_distributeTimes base found
    have exponent : n = ((n.toNat - 1 + 1 : Nat) : Int) := by omega
    refine ⟨whole, ?_⟩
    rw [value, ← pow_succ', exponent, zpow_natCast, ← exponent]

end Distribution

theorem keepsValue_sum {constant : Rat} {terms : List Multiple}
    (canonical : (sum constant terms).Canonical)
    (each : ∀ t q, (t, q) ∈ terms → t.KeepsValue v) : (sum constant terms).KeepsValue v := by
  intro r found
  have whole := raisingLaws_integerPower.each_expand_sum found canonical
    fun t q stored u expansion => (each t q stored u expansion).1.each
  refine ⟨⟨canonical_expand found canonical, whole⟩, ?_⟩
  rw [expand_sum] at found
  obtain ⟨summands, expanded, rfl⟩ := map_eq_ok_iff.mp found
  have values : summands.map (valueAt v) =
      terms.map fun multiple => (multiple.2 : K) * multiple.1.valueAt v := by
    refine map_eq_map_of_mapM expanded ?_
    rintro ⟨t, q⟩ stored s result
    obtain ⟨u, expansion, rfl⟩ := map_eq_ok_iff.mp result
    exact ((assigned v).value_scale q u).trans
      (congrArg ((q : K) * ·) (each t q stored u expansion).2)
  have total := (assigned v).value_sumOf (summands ++ [number constant])
  refine total.trans (Eq.trans ?_ ((assigned v).sum constant terms).symm)
  have constant_value := (assigned v).number constant
  rw [List.map_append, List.sum_append, List.map_singleton, List.sum_singleton, constant_value,
    add_comm]
  exact congrArg (fun values : List K => constant + values.sum) values

theorem keepsValue_power {b : Expr} {n : Int} (base : b.KeepsValue v) (nonzero : n ≠ 0)
    (defined : n < 0 → b.valueAt v ≠ 0) : (power b (number n)).KeepsValue v := by
  intro r found
  obtain ⟨b', exponent, expanded_base, expanded_exponent, outcome⟩ := expand_power_cases found
  have same : (expand (number n) : Except Error Expr) = .ok (number n) :=
    expand_eq_self (by simp) (by simp) (by simp)
  cases same.symm.trans expanded_exponent
  obtain ⟨whole, value⟩ := base b' expanded_base
  have power_value := (assigned v).power b (number n)
  simp only [assigned, integerExponent_number] at power_value
  rw [power_value, ← value]
  rcases outcome with ⟨c, terms, m, rfl, same, positive, found⟩ | ⟨_, found⟩
  · obtain rfl : n = m := by exact_mod_cast number.inj same
    exact whole.of_expandPower positive found
  · have throughout : Throughout (IntegerPower v) (b', number n) :=
      ⟨⟨n, rfl, value ▸ defined⟩, whole.each, each_number n⟩
    exact ⟨⟨canonical_powerOf found whole.canonical (canonical_number n),
      raisingLaws_integerPower.each_powerOf found whole.canonical (canonical_number n) throughout⟩,
      valueAt_powerOf whole.canonical whole.each nonzero found⟩

theorem Assigned.of_foldlM {parts : List Expr} (keep : ∀ part ∈ parts, part.KeepsValue v)
    {acc r : Expr} (start : Assigned v acc)
    (found : parts.foldlM (fun acc part => do distribute acc (← expand part)) acc =
      (.ok r : Except Error Expr)) :
    Assigned v r ∧ r.valueAt v = acc.valueAt v * (parts.map (valueAt v)).prod := by
  induction parts generalizing acc with
  | nil =>
    cases found
    exact ⟨start, (mul_one _).symm⟩
  | cons part rest ih =>
    obtain ⟨first, later⟩ := List.forall_mem_cons.mp keep
    rw [List.foldlM_cons] at found
    obtain ⟨next, step, found⟩ := bind_eq_ok_iff.mp found
    obtain ⟨u, expansion, distributed⟩ := bind_eq_ok_iff.mp step
    obtain ⟨inner, value⟩ := first u expansion
    obtain ⟨whole, product⟩ := start.of_distribute inner distributed
    obtain ⟨result, value'⟩ := ih later whole found
    exact ⟨result, by rw [value', product, value, List.map_cons, List.prod_cons, mul_assoc]⟩

theorem keepsValue_product {q : Rat} {factors : List Factor}
    (keep : ∀ part ∈ partsOf factors, part.KeepsValue v) : (product q factors).KeepsValue v := by
  intro r found
  rw [expand_product] at found
  obtain ⟨whole, value⟩ := (assigned_number q).of_foldlM keep found
  refine ⟨whole, value.trans ?_⟩
  have parts := (assigned v).prod_value_partsOf factors
  have product := (assigned v).product q factors
  have coefficient := (assigned v).number q
  exact (congrArg₂ (· * ·) coefficient parts).trans product.symm

theorem Assigned.keepsValue {e : Expr} (whole : Assigned v e) : e.KeepsValue v := by
  obtain ⟨canonical, each⟩ := whole
  induction e using Expr.induction with
  | sum constant terms ih =>
    have valid := canonical.valid_linearForm
    exact keepsValue_sum canonical fun t q stored =>
      ih t q stored (valid.canonical t q stored) (each_sum.mp each t q stored)
  | product q factors ih =>
    obtain ⟨_, _, kept⟩ := canonical_product_iff.mp canonical
    refine keepsValue_product fun part member => ?_
    obtain ⟨⟨b, x⟩, stored, rfl⟩ := List.mem_map.mp member
    obtain ⟨⟨n, integer, defined⟩, base, _⟩ := each_product.mp each _ stored
    obtain rfl : x = number n := integer
    have keeps := (ih b _ stored).1 (kept.bases_canonical b _ stored) base
    unfold ofFactor
    split
    · exact keeps
    · refine keepsValue_power keeps ?_ defined
      rintro rfl
      exact (kept.factor b _ stored).exponent (by simp)
  | power b x base _ =>
    cases canonical with
    | power form base_canonical =>
      obtain ⟨⟨n, integer, defined⟩, inner, _⟩ := each_power.mp each
      obtain rfl : x = number n := integer
      refine keepsValue_power (base base_canonical inner) ?_ defined
      rintro rfl
      exact form.exponent_ne_zero (by simp)
  | _ =>
    exact keepsValue_of_expand_eq_self ⟨canonical, each⟩
      (expand_eq_self (by simp) (by simp) (by simp))

/-- Expansion keeps the value: at every assignment of values of a field to symbols, functions and
formal derivatives at which an expression with integer exponents is defined, its expansion is
defined and has the same value. -/
theorem valueAt_expand {e r : Expr} (canonical : e.Canonical) (defined : e.DefinedAt v)
    (found : (expand e : Except Error Expr) = .ok r) :
    r.DefinedAt v ∧ r.valueAt v = e.valueAt v := by
  obtain ⟨whole, value⟩ :=
    Assigned.keepsValue ⟨canonical, definedAt_iff_each.mp defined⟩ r found
  exact ⟨definedAt_iff_each.mpr whole.each, value⟩

/-- The expression `(x*(y + 1) - x*y)^(-2)`, whose base comes down to `x`. -/
def collapsingPower : Expr :=
  power (sum 0 [(product 1 [(symbol "x", number 1), (symbol "y", number 1)], -1),
    (product 1 [(symbol "x", number 1), (sum 1 [(symbol "y", 1)], number 1)], 1)]) (number (-2))

/-- The value three for every symbol. -/
def threefold : Expr → ℚ :=
  fun _ => 3

theorem canonical_collapsingPower : collapsingPower.Canonical := by
  have left : (product 1 [(symbol "x", number 1), (symbol "y", number 1)]).Canonical :=
    @canonical_productOf [symbol "x", symbol "y"] _ (by cbv)
      (canonical_pair (.symbol "x") (.symbol "y"))
  have right : (product 1 [(symbol "x", number 1),
      (sum 1 [(symbol "y", 1)], number 1)]).Canonical :=
    @canonical_productOf [symbol "x", sum 1 [(symbol "y", 1)]] _ (by cbv)
      (canonical_pair (.symbol "x") (canonical_successor "y"))
  exact canonical_powerOf (b := sum 0 _) (e := number (-2)) (by cbv)
    (canonical_sum_pair left right rfl rfl (by cbv) (by decide) one_ne_zero) (canonical_number _)

theorem definedAt_collapsingPower : collapsingPower.DefinedAt threefold := by
  have bare (e : Expr) (each : e.Each (IntegerPower threefold)) :
      Throughout (IntegerPower threefold) (e, number 1) :=
    ⟨integerPower_one e, each, each_number 1⟩
  have x := bare (symbol "x") (each_of_isIndeterminate trivial)
  have y := bare (symbol "y") (each_of_isIndeterminate trivial)
  have successor := bare (sum 1 [(symbol "y", 1)]) (each_sum.mpr (by simpa using y.base))
  have base : (sum 0 [(product 1 [(symbol "x", number 1), (symbol "y", number 1)], -1),
      (product 1 [(symbol "x", number 1), (sum 1 [(symbol "y", 1)], number 1)], 1)]).Each
        (IntegerPower threefold) := by
    have left := (each_product (q := 1)).mpr
      (List.forall_mem_cons.mpr ⟨x, List.forall_mem_singleton.mpr y⟩)
    have right := (each_product (q := 1)).mpr
      (List.forall_mem_cons.mpr ⟨x, List.forall_mem_singleton.mpr successor⟩)
    refine each_sum.mpr ?_
    simp only [List.mem_cons, Prod.mk.injEq, List.not_mem_nil, or_false]
    rintro t q (⟨rfl, rfl⟩ | ⟨rfl, rfl⟩)
    · exact left
    · exact right
  refine definedAt_iff_each.mpr (each_power.mpr ⟨⟨-2, by simp, fun _ => ?_⟩, base, each_number _⟩)
  norm_num [valueAt, valueOfTermsAt, valueOfFactorsAt, threefold, integerExponent, integer?,
    isInteger]

theorem valueAt_expand_collapsingPower :
    (expand collapsingPower : Except Error Expr) = .ok (power (symbol "x") (number (-2))) ∧
      (power (symbol "x") (number (-2))).valueAt threefold = collapsingPower.valueAt threefold := by
  have found : (expand collapsingPower : Except Error Expr) =
      .ok (power (symbol "x") (number (-2))) := by cbv
  exact ⟨found, (valueAt_expand canonical_collapsingPower definedAt_collapsingPower found).2⟩

end SymbolicAlgebra
