import Mathlib.Algebra.Order.Ring.Rat
import SymbolicAlgebra.Arithmetic
import SymbolicAlgebra.Proofs.Outcome

namespace SymbolicAlgebra

open SymbolicAlgebra.Expr

theorem weight_le_of_productOf {operands : List Expr} {r : Expr}
    (product : (productOf operands : Except Error Expr) = .ok r) :
    r.weight ≤ totalWeight operands :=
  property_of_val_eq_ok (fun r : Expr => r.weight ≤ totalWeight operands) product

theorem within_of_settledFactors {factors : List Factor} {settled : Settled}
    (found : (settledFactors factors : Except Error Settled) = .ok settled) :
    settled.Within (sizeOfBases factors) :=
  property_of_val_eq_ok (fun settled : Settled => settled.Within (sizeOfBases factors)) found

theorem raisedFrom_of_powerOf {b e r : Expr}
    (power : (powerOf b e : Except Error Expr) = .ok r) : RaisedFrom (b, e) r :=
  property_of_val_eq_ok (RaisedFrom (b, e)) power

theorem totalWeight_le_of_powersOf {factors : List Factor} {n : Int} {rs : List Expr}
    (powers : (powersOf factors n : Except Error (List Expr)) = .ok rs) :
    totalWeight rs ≤ sizeOfBases factors :=
  property_of_val_eq_ok (fun rs => totalWeight rs ≤ sizeOfBases factors) powers

namespace Expr

theorem number?_eq_some_iff {e : Expr} {q : Rat} : e.number? = some q ↔ e = number q := by
  cases e <;> simp [number?]

theorem integer_eq {q : Rat} (integer : isInteger q = true) : (q.num : Rat) = q := by
  refine Rat.ext rfl ?_
  exact (eq_of_beq integer).symm

theorem integer?_eq_some_iff {e : Expr} {n : Int} : e.integer? = some n ↔ e = number n := by
  cases e with
  | number q =>
    simp only [integer?, number.injEq]
    split
    · rename_i integer
      rw [Option.some.injEq, ← integer_eq integer]
      exact ⟨congrArg _, fun equal => congrArg Rat.num equal⟩
    · rename_i other
      simp only [reduceCtorEq, false_iff]
      rintro rfl
      exact other rfl
  | _ => simp [integer?]

/-- The expressions that are raised to an integer by raising what they are made of. -/
def raisesInside : Expr → Bool
  | number _ => true
  | power _ _ => true
  | product _ _ => true
  | _ => false

/-- The powers that are kept as they are, because no rule of exponents applies to them. -/
structure CanonicalPower (b e : Expr) : Prop where
  exponent_ne_zero : e ≠ number 0
  exponent_ne_one : e ≠ number 1
  base_ne_one : b ≠ number 1
  symbolic_over_zero : b = number 0 → e.number? = none
  fractional_over_folding : b.raisesInside = true → e.integer? = none

theorem number?_eq_none_iff {e : Expr} : e.number? = none ↔ ∀ q, e ≠ number q := by
  cases e <;> simp [number?]

theorem integer?_eq_none_iff {e : Expr} : e.integer? = none ↔ ∀ n : Int, e ≠ number n := by
  simp only [ne_eq, ← integer?_eq_some_iff, Option.eq_none_iff_forall_ne_some]

theorem canonicalPower_of_symbolic {b e : Expr} (symbolic : e.number? = none)
    (base : b ≠ number 1) : CanonicalPower b e where
  exponent_ne_zero := number?_eq_none_iff.mp symbolic 0
  exponent_ne_one := number?_eq_none_iff.mp symbolic 1
  base_ne_one := base
  symbolic_over_zero _ := symbolic
  fractional_over_folding _ := integer?_eq_none_iff.mpr fun n => number?_eq_none_iff.mp symbolic n

end Expr

/-- What was raised is a number, the factor itself, or something to be multiplied in again. -/
theorem Settled.add_cases {settled settled' : Settled} {factor : Factor} {r : Expr}
    (added : settled.add factor r = settled') :
    (∃ q, r = number q ∧ settled' = { settled with coefficient := q * settled.coefficient }) ∨
    ((∀ q, r ≠ number q) ∧ (∀ q factors, r ≠ product q factors) ∧ r.toFactor = factor ∧
      settled' = { settled with kept := factor :: settled.kept }) ∨
    ((∀ q, r ≠ number q) ∧
      settled' = { settled with rewritten := r :: settled.rewritten }) := by
  unfold Settled.add at added
  split at added
  · rename_i q
    exact .inl ⟨q, rfl, added.symm⟩
  · exact .inr (.inr ⟨by simp, added.symm⟩)
  · rename_i not_number not_product
    split at added
    · rename_i same
      exact .inr (.inl ⟨not_number, not_product, same, added.symm⟩)
    · exact .inr (.inr ⟨not_number, added.symm⟩)

mutual

/-- The steps that lead from operands to their product. -/
inductive ProductRun : List Expr → Expr → Prop where
  | zero {operands} (vanishes : collectCoefficient operands = 0) :
      ProductRun operands (number 0)
  | vanished {operands settled} (settles : SettleRun (collectFactors operands) settled)
      (vanishes : collectCoefficient operands * settled.coefficient = 0) :
      ProductRun operands (number 0)
  | assembled {operands settled} (settles : SettleRun (collectFactors operands) settled)
      (nonzero : collectCoefficient operands * settled.coefficient ≠ 0)
      (done : settled.rewritten = []) :
      ProductRun operands
        (assembleProduct (collectCoefficient operands * settled.coefficient) settled.kept)
  | again {operands settled r} (settles : SettleRun (collectFactors operands) settled)
      (nonzero : collectCoefficient operands * settled.coefficient ≠ 0)
      (rewritten : settled.rewritten ≠ [])
      (rest : ProductRun (settled.rewritten ++ partsOf settled.kept ++
        [number (collectCoefficient operands * settled.coefficient)]) r) :
      ProductRun operands r

/-- The steps in which every base is raised to its exponent. -/
inductive SettleRun : List Factor → Settled → Prop where
  | nil : SettleRun [] ⟨1, [], []⟩
  | dropped {b rest settled} (tail : SettleRun rest settled) :
      SettleRun ((b, number 0) :: rest) settled
  | raised {b e r rest settled} (exponent : e ≠ number 0) (power : PowerRun b e r)
      (tail : SettleRun rest settled) : SettleRun ((b, e) :: rest) (settled.add (b, e) r)

/-- The steps that lead from a base and an exponent to the power. -/
inductive PowerRun : Expr → Expr → Expr → Prop where
  | zeroBase {q r} (power : zeroPower q = .ok r) : PowerRun (number 0) (number q) (number r)
  | zeroExponent {b} (base : b ≠ number 0) : PowerRun b (number 0) (number 1)
  | oneExponent {b} (base : b ≠ number 0) : PowerRun b (number 1) b
  | oneBase {e} (zero : e ≠ number 0) (one : e ≠ number 1) : PowerRun (number 1) e (number 1)
  | exact {q r} {n : Int} (base_zero : q ≠ 0) (base_one : q ≠ 1) (zero : n ≠ 0) (one : n ≠ 1)
      (power : exactPower q n = .ok r) : PowerRun (number q) (number n) (number r)
  | nested {c f k r} {n : Int} (zero : n ≠ 0) (one : n ≠ 1) (exponent : ProductRun [f, number n] k)
      (inner : PowerRun c k r) : PowerRun (power c f) (number n) r
  | distributed {coefficient factors p rs r} {n : Int} (zero : n ≠ 0) (one : n ≠ 1)
      (number_power : exactPower coefficient n = .ok p) (powers : PowersRun factors n rs)
      (whole : ProductRun (number p :: rs) r) : PowerRun (product coefficient factors) (number n) r
  | kept {b e} (canonical : CanonicalPower b e) : PowerRun b e (power b e)

/-- The steps in which every factor of a product is raised to one integer power. -/
inductive PowersRun : List Factor → Int → List Expr → Prop where
  | nil {n} : PowersRun [] n []
  | cons {b e k r rest rs} {n : Int} (exponent : ProductRun [e, number n] k)
      (power : PowerRun b k r) (tail : PowersRun rest n rs) :
      PowersRun ((b, e) :: rest) n (r :: rs)

end

section PowerRules

theorem powerOf_zero_number (q : Rat) :
    (powerOf (number 0) (number q) : Except Error Expr) = number <$> zeroPower q := by
  rw [powerOf_eq, if_pos (by decide)]
  simp only [number?, ofExcept_eq]

theorem powerOf_exponent_zero {b : Expr} (base : b ≠ number 0) :
    (powerOf b (number 0) : Except Error Expr) = .ok (number 1) := by
  rw [powerOf_eq, if_neg (by rwa [isZero, isNumber_iff]), if_pos (by decide)]
  rfl

theorem powerOf_exponent_one {b : Expr} (base : b ≠ number 0) :
    (powerOf b (number 1) : Except Error Expr) = .ok b := by
  rw [powerOf_eq, if_neg (by rwa [isZero, isNumber_iff]), if_neg (by decide), if_pos (by decide)]
  rfl

theorem powerOf_one (b : Expr) : (powerOf b (number 1) : Except Error Expr) = .ok b := by
  by_cases zero : b = number 0
  · rw [zero, powerOf_zero_number]
    rfl
  · exact powerOf_exponent_one zero

theorem powerOf_base_one {e : Expr} (zero : e ≠ number 0) (one : e ≠ number 1) :
    (powerOf (number 1) e : Except Error Expr) = .ok (number 1) := by
  rw [powerOf_eq, if_neg (by decide), if_neg (by rwa [isZero, isNumber_iff]),
    if_neg (by rwa [isOne, isNumber_iff]), if_pos (by decide)]
  rfl

theorem integer?_number (n : Int) : (number n).integer? = some n :=
  integer?_eq_some_iff.mpr rfl

theorem integer_ne_zero {n : Int} (zero : n ≠ 0) : ¬ (number n).isZero = true := by
  rw [isZero, isNumber_iff]
  intro equal
  exact zero (by exact_mod_cast number.inj equal)

theorem integer_ne_one {n : Int} (one : n ≠ 1) : ¬ (number n).isOne = true := by
  rw [isOne, isNumber_iff]
  intro equal
  exact one (by exact_mod_cast number.inj equal)

theorem powerOf_number {q : Rat} {n : Int} (base_zero : q ≠ 0) (base_one : q ≠ 1) (zero : n ≠ 0)
    (one : n ≠ 1) :
    (powerOf (number q) (number n) : Except Error Expr) = number <$> exactPower q n := by
  rw [powerOf_eq, if_neg (by simpa [isZero, isNumber]), if_neg (integer_ne_zero zero),
    if_neg (integer_ne_one one), if_neg (by simpa [isOne, isNumber]), integer?_number]
  simp only [ofExcept_eq]

theorem powerOf_power {c f : Expr} {n : Int} (zero : n ≠ 0) (one : n ≠ 1) :
    (powerOf (power c f) (number n) : Except Error Expr) =
      (do powerOf c (← productOf [f, number n])) := by
  rw [powerOf_eq, if_neg (by simp [isZero, isNumber]), if_neg (integer_ne_zero zero),
    if_neg (integer_ne_one one), if_neg (by simp [isOne, isNumber]), integer?_number]
  rfl

theorem powerOf_product {coefficient : Rat} {factors : List Factor} {n : Int} (zero : n ≠ 0)
    (one : n ≠ 1) :
    (powerOf (product coefficient factors) (number n) : Except Error Expr) = (do
      let p ← exactPower coefficient n
      productOf (number p :: (← powersOf factors n))) := by
  rw [powerOf_eq, if_neg (by simp [isZero, isNumber]), if_neg (integer_ne_zero zero),
    if_neg (integer_ne_one one), if_neg (by simp [isOne, isNumber]), integer?_number]
  simp only [ofExcept_eq]
  rfl

theorem powerOf_of_canonicalPower {b e : Expr} (canonical : CanonicalPower b e) :
    (powerOf b e : Except Error Expr) = .ok (power b e) := by
  rw [powerOf_eq]
  by_cases base : b = number 0
  · rw [if_pos (by rwa [isZero, isNumber_iff]), canonical.symbolic_over_zero base]
    rfl
  · rw [if_neg (by rwa [isZero, isNumber_iff]),
      if_neg (by rw [isZero, isNumber_iff]; exact canonical.exponent_ne_zero),
      if_neg (by rw [isOne, isNumber_iff]; exact canonical.exponent_ne_one),
      if_neg (by rw [isOne, isNumber_iff]; exact canonical.base_ne_one)]
    cases integer : e.integer? with
    | none => rfl
    | some n =>
      have free : b.raisesInside ≠ true := fun folds => by
        rw [canonical.fractional_over_folding folds] at integer
        cases integer
      cases b <;> first | rfl | exact absurd rfl free

/-- The rule of exponents that applies to a base and an exponent. -/
inductive PowerRule : Expr → Expr → Prop where
  | zeroBase (q) : PowerRule (number 0) (number q)
  | zeroExponent {b} (base : b ≠ number 0) : PowerRule b (number 0)
  | oneExponent {b} (base : b ≠ number 0) : PowerRule b (number 1)
  | oneBase {e} (zero : e ≠ number 0) (one : e ≠ number 1) : PowerRule (number 1) e
  | inside {b} {n : Int} (folds : b.raisesInside = true) (base_zero : b ≠ number 0)
      (base_one : b ≠ number 1) (zero : n ≠ 0) (one : n ≠ 1) : PowerRule b (number n)
  | none {b e} (canonical : CanonicalPower b e) : PowerRule b e

theorem powerRule (b e : Expr) : PowerRule b e := by
  by_cases base_zero : b = number 0
  · subst base_zero
    cases exponent : e.number? with
    | some q =>
      obtain rfl := number?_eq_some_iff.mp exponent
      exact .zeroBase q
    | none => exact .none (canonicalPower_of_symbolic exponent (by simp))
  by_cases zero : e = number 0
  · subst zero
    exact .zeroExponent base_zero
  by_cases one : e = number 1
  · subst one
    exact .oneExponent base_zero
  by_cases base_one : b = number 1
  · subst base_one
    exact .oneBase zero one
  by_cases inside : b.raisesInside = true ∧ ∃ n : Int, e = number n
  · obtain ⟨folds, n, rfl⟩ := inside
    refine .inside folds base_zero base_one ?_ ?_
    · rintro rfl
      exact zero (by simp)
    · rintro rfl
      exact one (by simp)
  · refine .none ⟨zero, one, base_one, fun equal => absurd equal base_zero, fun folds => ?_⟩
    exact integer?_eq_none_iff.mpr fun n integer => inside ⟨folds, n, integer⟩

end PowerRules

mutual

/-- A product that is found is reached by such steps. The weights that bound the recursion of the
product itself bound this one. -/
theorem ProductRun.of_productOf {operands : List Expr} {r : Expr}
    (found : (productOf operands : Except Error Expr) = .ok r) : ProductRun operands r := by
  rw [productOf_eq] at found
  obtain ⟨_, _, found⟩ := bind_eq_ok_iff.mp found
  dsimp only at found
  split at found
  · rename_i vanishes
    cases found
    exact .zero vanishes
  · obtain ⟨settled, settling, found⟩ := bind_eq_ok_iff.mp found
    obtain ⟨_, _, found⟩ := bind_eq_ok_iff.mp found
    have settles := SettleRun.of_settledFactors settling
    split at found
    · rename_i vanishes
      cases found
      exact .vanished settles vanishes
    · rename_i nonzero
      by_cases done : settled.rewritten = []
      · rw [if_pos done] at found
        cases found
        exact .assembled settles nonzero done
      · rw [if_neg done] at found
        exact .again settles nonzero done (ProductRun.of_productOf found)
termination_by 3 * totalWeight operands + 2
decreasing_by
  · have := sizeOfBases_collectFactors_le operands
    omega
  · have := totalWeight_partsOf_le settled.kept
    have := sizeOfBases_collectFactors_le operands
    have := (within_of_settledFactors settling).2 done
    simp only [Settled.weight] at this
    simp only [totalWeight_append, totalWeight_cons, totalWeight_nil, weight_number]
    omega

theorem SettleRun.of_settledFactors {factors : List Factor} {settled : Settled}
    (found : (settledFactors factors : Except Error Settled) = .ok settled) :
    SettleRun factors settled := by
  match factors with
  | [] =>
    rw [settledFactors_nil] at found
    cases found
    exact .nil
  | (b, e) :: rest =>
    rw [settledFactors_cons] at found
    split at found
    · rename_i zero
      obtain rfl := isNumber_iff.mp zero
      exact .dropped (SettleRun.of_settledFactors found)
    · rename_i nonzero
      obtain ⟨r, power, found⟩ := bind_eq_ok_iff.mp found
      obtain ⟨settled, tail, found⟩ := bind_eq_ok_iff.mp found
      cases found
      exact .raised (fun zero => nonzero (isNumber_iff.mpr zero)) (PowerRun.of_powerOf power)
        (SettleRun.of_settledFactors tail)
termination_by 3 * sizeOfBases factors + 1
decreasing_by
  all_goals
    have := size_pos b
    simp only [sizeOfBases_cons]
    omega

theorem PowerRun.of_powerOf {b e r : Expr}
    (found : (powerOf b e : Except Error Expr) = .ok r) : PowerRun b e r := by
  cases powerRule b e with
  | zeroBase q =>
    rw [powerOf_zero_number] at found
    obtain ⟨p, power, rfl⟩ := map_eq_ok_iff.mp found
    exact .zeroBase power
  | zeroExponent base =>
    rw [powerOf_exponent_zero base] at found
    cases found
    exact .zeroExponent base
  | oneExponent base =>
    rw [powerOf_exponent_one base] at found
    cases found
    exact .oneExponent base
  | oneBase zero one =>
    rw [powerOf_base_one zero one] at found
    cases found
    exact .oneBase zero one
  | none canonical =>
    rw [powerOf_of_canonicalPower canonical] at found
    cases found
    exact .kept canonical
  | inside folds base_zero base_one zero one =>
    cases shape : b with
    | number q =>
      rw [shape] at found base_zero base_one
      have nonzero : q ≠ 0 := fun equal => base_zero (congrArg number equal)
      have not_one : q ≠ 1 := fun equal => base_one (congrArg number equal)
      rw [powerOf_number nonzero not_one zero one] at found
      obtain ⟨p, power, rfl⟩ := map_eq_ok_iff.mp found
      exact .exact nonzero not_one zero one power
    | power c f =>
      rw [shape, powerOf_power zero one] at found
      obtain ⟨k, exponent, found⟩ := bind_eq_ok_iff.mp found
      exact .nested zero one (ProductRun.of_productOf exponent) (PowerRun.of_powerOf found)
    | product coefficient factors =>
      rw [shape, powerOf_product zero one] at found
      obtain ⟨p, number_power, found⟩ := bind_eq_ok_iff.mp found
      obtain ⟨rs, powers, found⟩ := bind_eq_ok_iff.mp found
      exact .distributed zero one number_power (PowersRun.of_powersOf powers)
        (ProductRun.of_productOf found)
    | _ =>
      rw [shape] at folds
      cases folds
termination_by 3 * b.size
decreasing_by
  · simp only [shape, size]
    omega
  · have := totalWeight_le_of_powersOf powers
    have := sizeOfBases_le factors
    simp only [shape, totalWeight_cons, weight_number, size]
    omega
  · have := weight_le_size f
    simp only [shape, totalWeight_cons, totalWeight_nil, weight_number, size]
    omega
  · simp only [shape, size]
    omega

theorem PowersRun.of_powersOf {factors : List Factor} {n : Int} {rs : List Expr}
    (found : (powersOf factors n : Except Error (List Expr)) = .ok rs) :
    PowersRun factors n rs := by
  match factors with
  | [] =>
    rw [powersOf_nil] at found
    cases found
    exact .nil
  | (b, e) :: rest =>
    rw [powersOf_cons] at found
    obtain ⟨k, exponent, found⟩ := bind_eq_ok_iff.mp found
    obtain ⟨r, power, found⟩ := bind_eq_ok_iff.mp found
    obtain ⟨rs, tail, found⟩ := bind_eq_ok_iff.mp found
    cases found
    exact .cons (ProductRun.of_productOf exponent) (PowerRun.of_powerOf power)
      (PowersRun.of_powersOf tail)
termination_by 3 * sizeOfFactors factors + 1
decreasing_by
  · have := weight_le_size e
    have := size_pos b
    simp only [totalWeight_cons, totalWeight_nil, weight_number, sizeOfFactors]
    omega
  · simp only [sizeOfFactors]
    omega
  · simp only [sizeOfFactors]
    omega

end

/-- A product once its factors have settled. -/
theorem productOf_of_settledFactors {operands : List Expr} {settled : Settled} {q : Rat}
    (coefficient : collectCoefficient operands ≠ 0)
    (settling : (settledFactors (collectFactors operands) : Except Error Settled) = .ok settled)
    (total : collectCoefficient operands * settled.coefficient = q) :
    (productOf operands : Except Error Expr) =
      if q = 0 then .ok (number 0)
      else if settled.rewritten = [] then .ok (assembleProduct q settled.kept)
      else productOf (settled.rewritten ++ partsOf settled.kept ++ [number q]) := by
  subst total
  rw [productOf_eq]
  dsimp only
  rw [if_neg coefficient, settling]
  rfl

mutual

theorem ProductRun.productOf_eq_ok :
    ∀ {operands r}, ProductRun operands r → (productOf operands : Except Error Expr) = .ok r
  | operands, _, .zero vanishes => by
    rw [productOf_eq]
    dsimp only
    rw [if_pos vanishes]
    rfl
  | operands, _, .vanished settles vanishes => by
    by_cases coefficient : collectCoefficient operands = 0
    · rw [productOf_eq]
      dsimp only
      rw [if_pos coefficient]
      rfl
    · have settling := settles.settledFactors_eq_ok
      rw [productOf_of_settledFactors coefficient settling vanishes, if_pos rfl]
  | operands, _, .assembled settles nonzero done => by
    have coefficient := left_ne_zero_of_mul nonzero
    have settling := settles.settledFactors_eq_ok
    rw [productOf_of_settledFactors coefficient settling rfl, if_neg nonzero, if_pos done]
  | operands, _, .again settles nonzero rewritten rest => by
    have coefficient := left_ne_zero_of_mul nonzero
    have settling := settles.settledFactors_eq_ok
    rw [productOf_of_settledFactors coefficient settling rfl, if_neg nonzero, if_neg rewritten]
    exact rest.productOf_eq_ok

theorem SettleRun.settledFactors_eq_ok :
    ∀ {factors settled}, SettleRun factors settled →
      (settledFactors factors : Except Error Settled) = .ok settled
  | _, _, .nil => by
    rw [settledFactors_nil]
    rfl
  | _, _, .dropped tail => by
    rw [settledFactors_cons, if_pos (by decide)]
    exact tail.settledFactors_eq_ok
  | _, _, .raised exponent raises tail => by
    rw [settledFactors_cons, if_neg (by rwa [isZero, isNumber_iff])]
    exact bind_eq_ok_iff.mpr ⟨_, raises.powerOf_eq_ok,
      bind_eq_ok_iff.mpr ⟨_, tail.settledFactors_eq_ok, rfl⟩⟩

theorem PowerRun.powerOf_eq_ok :
    ∀ {b e r}, PowerRun b e r → (powerOf b e : Except Error Expr) = .ok r
  | _, _, _, .zeroBase found => by
    rw [powerOf_zero_number, found]
    rfl
  | _, _, _, .zeroExponent base => powerOf_exponent_zero base
  | _, _, _, .oneExponent base => powerOf_exponent_one base
  | _, _, _, .oneBase zero one => powerOf_base_one zero one
  | _, _, _, .exact base_zero base_one zero one found => by
    rw [powerOf_number base_zero base_one zero one, found]
    rfl
  | _, _, _, .nested zero one exponent inner => by
    rw [powerOf_power zero one]
    exact bind_eq_ok_iff.mpr ⟨_, exponent.productOf_eq_ok, inner.powerOf_eq_ok⟩
  | _, _, _, .distributed zero one number_power powers whole => by
    rw [powerOf_product zero one]
    exact bind_eq_ok_iff.mpr ⟨_, number_power,
      bind_eq_ok_iff.mpr ⟨_, powers.powersOf_eq_ok, whole.productOf_eq_ok⟩⟩
  | _, _, _, .kept canonical => powerOf_of_canonicalPower canonical

theorem PowersRun.powersOf_eq_ok :
    ∀ {factors n rs}, PowersRun factors n rs →
      (powersOf factors n : Except Error (List Expr)) = .ok rs
  | _, _, _, .nil => by
    rw [powersOf_nil]
    rfl
  | _, _, _, .cons exponent raises tail => by
    rw [powersOf_cons]
    exact bind_eq_ok_iff.mpr ⟨_, exponent.productOf_eq_ok,
      bind_eq_ok_iff.mpr ⟨_, raises.powerOf_eq_ok,
        bind_eq_ok_iff.mpr ⟨_, tail.powersOf_eq_ok, rfl⟩⟩⟩

end

theorem productOf_eq_ok_iff {operands : List Expr} {r : Expr} :
    (productOf operands : Except Error Expr) = .ok r ↔ ProductRun operands r :=
  ⟨ProductRun.of_productOf, ProductRun.productOf_eq_ok⟩

theorem powerOf_eq_ok_iff {b e r : Expr} :
    (powerOf b e : Except Error Expr) = .ok r ↔ PowerRun b e r :=
  ⟨PowerRun.of_powerOf, PowerRun.powerOf_eq_ok⟩

theorem settledFactors_eq_ok_iff {factors : List Factor} {settled : Settled} :
    (settledFactors factors : Except Error Settled) = .ok settled ↔ SettleRun factors settled :=
  ⟨SettleRun.of_settledFactors, SettleRun.settledFactors_eq_ok⟩

end SymbolicAlgebra
