import SymbolicAlgebra.Proofs.ExactPowers
import SymbolicAlgebra.Proofs.IntegerPowers

namespace SymbolicAlgebra

open SymbolicAlgebra.Expr SymbolicAlgebra.Interpretation

/-- A power of a number, as long as it is none of zero, one and minus one, may be too large. -/
structure PowerTooLarge (v : Rat) (n : Int) : Prop where
  nonzero : v ≠ 0
  not_one : v ≠ 1
  not_minus_one : v ≠ -1
  bits : powerBitLimit < powerBits v n

structure PowerDefined (v : Rat) (n : Int) : Prop where
  base : n < 0 → v ≠ 0
  small : ¬ PowerTooLarge v n

inductive PowerRefused (v : Rat) (n : Int) : Error → Prop where
  | zeroBase (zero : v = 0) (negative : n < 0) : PowerRefused v n .zeroToNonPositivePower
  | tooLarge (large : PowerTooLarge v n) : PowerRefused v n (.exponentTooLarge n)

/-- An integer power of a number is its exact value, or is refused for one of the two causes. -/
theorem exactPower_cases (v : Rat) {n : Int} (nonzero : n ≠ 0) :
    (PowerDefined v n ∧ exactPower v n = .ok (v ^ n)) ∨
      ∃ c, PowerRefused v n c ∧ exactPower v n = .error c := by
  by_cases zero : v = 0
  · subst zero
    rw [exactPower_zero]
    by_cases positive : 0 < n
    · refine .inl ⟨⟨fun below => absurd below positive.not_gt, fun large => large.nonzero rfl⟩, ?_⟩
      rw [if_pos positive, zero_zpow n nonzero]
    · exact .inr ⟨_, .zeroBase rfl (by omega), if_neg positive⟩
  · by_cases large : PowerTooLarge v n
    · refine .inr ⟨_, .tooLarge large, ?_⟩
      rw [exactPower_eq, if_neg zero, if_neg large.not_one, if_neg large.not_minus_one,
        if_pos large.bits]
    · refine .inl ⟨⟨fun _ => zero, large⟩, ?_⟩
      cases found : exactPower v n with
      | ok r => rw [exactPower_eq_ok found]
      | error c =>
        rw [exactPower_eq, if_neg zero] at found
        split_ifs at found with one minus_one bits
        exact absurd ⟨zero, one, minus_one, bits⟩ large

/-- A number to an integer power, where the first power is not calculated. -/
def integerPower (v : Rat) (n : Int) : Except Error Rat :=
  if n = 1 then .ok v else exactPower v n

theorem powerOf_numbers (v : Rat) {n : Int} (nonzero : n ≠ 0) :
    (powerOf (number v) (number n) : Except Error Expr) = number <$> integerPower v n := by
  unfold integerPower
  split
  · rename_i one
    rw [one, Int.cast_one, powerOf_one]
    rfl
  · rename_i other
    by_cases zero : v = 0
    · rw [zero, powerOf_zero_number, exactPower_eq, if_pos rfl]
    · by_cases one : v = 1
      · have exponent_zero : number n ≠ number 0 := fun same =>
          nonzero (by exact_mod_cast number.inj same)
        have exponent_one : number n ≠ number 1 := fun same =>
          other (by exact_mod_cast number.inj same)
        rw [one, powerOf_base_one exponent_zero exponent_one, exactPower_eq, if_neg one_ne_zero,
          if_pos rfl]
        rfl
      · rw [powerOf_number zero one nonzero other]

namespace Point

variable (p : Point)

mutual

/-- The value at a point, calculated step by step in exact arithmetic. A power may be refused. -/
def evaluate : Expr → Except Error Rat
  | number q => .ok q
  | .symbol name => .ok (p.symbol name)
  | sum constant terms => (constant + ·) <$> evaluateTerms terms
  | product coefficient factors => (coefficient * ·) <$> evaluateFactors factors
  | power b e => do integerPower (← evaluate b) (p.value e).num
  | sin a => p.sine <$> evaluate a
  | cos a => p.cosine <$> evaluate a
  | apply _ _ => .ok 0
  | .derivative _ _ => .ok 0

def evaluateTerms : List Multiple → Except Error Rat
  | [] => .ok 0
  | (t, q) :: rest => do
    let v ← evaluate t
    let w ← evaluateTerms rest
    return q * v + w

def evaluateFactors : List Factor → Except Error Rat
  | [] => .ok 1
  | (b, e) :: rest => do
    let v ← evaluate b
    let u ← integerPower v (p.value e).num
    let w ← evaluateFactors rest
    return u * w

end

end Point

/-- Numbers and symbols, and sums, products and integer powers of such expressions. -/
inductive Expr.Arithmetic : Expr → Prop where
  | number (q) : Arithmetic (number q)
  | symbol (name) : Arithmetic (symbol name)
  | sum {constant terms} (each : ∀ t q, (t, q) ∈ terms → Arithmetic t) :
      Arithmetic (sum constant terms)
  | product {q factors} (bases : ∀ b e, (b, e) ∈ factors → Arithmetic b)
      (exponents : ∀ b e, (b, e) ∈ factors → ∃ n : Int, e = Expr.number n) :
      Arithmetic (product q factors)
  | power {b} {n : Int} (base : Arithmetic b) : Arithmetic (power b (Expr.number n))

/-- Somewhere in the expression a base is raised to an integer exponent. A factor whose exponent is
one is not raised. -/
inductive Expr.HasPower : Expr → Expr → Int → Prop where
  | power {b} {n : Int} : HasPower (power b (number n)) b n
  | factor {q factors b} {n : Int} (stored : (b, number n) ∈ factors) (raised : n ≠ 1) :
      HasPower (product q factors) b n
  | inTerm {constant terms t q b n} (stored : (t, q) ∈ terms) (inner : HasPower t b n) :
      HasPower (sum constant terms) b n
  | inFactor {q factors c x b n} (stored : (c, x) ∈ factors) (inner : HasPower c b n) :
      HasPower (product q factors) b n
  | inBase {c x b n} (inner : HasPower c b n) : HasPower (Expr.power c x) b n

theorem Expr.hasPower_power_iff {b x c : Expr} {n : Int} :
    (power b x).HasPower c n ↔ b.HasPower c n ∨ c = b ∧ x = number n := by
  constructor
  · intro power
    cases power with
    | power => exact .inr ⟨rfl, rfl⟩
    | inBase inner => exact .inl inner
  · rintro (inner | ⟨rfl, rfl⟩)
    · exact .inBase inner
    · exact .power

/-- The outcome of a calculation that meets some powers: the value if all of them are defined, or
the cause for which one of them is refused. -/
inductive Calculated (p : Point) (met : Expr → Int → Prop) (v : Rat) : Except Error Rat → Prop where
  | value (defined : ∀ b n, met b n → PowerDefined (p.value b) n) : Calculated p met v (.ok v)
  | refused {b n c} (power : met b n) (refusal : PowerRefused (p.value b) n c) :
      Calculated p met v (.error c)

namespace Calculated

variable {p : Point} {met met' : Expr → Int → Prop} {v w : Rat} {x : Except Error Rat}

theorem congr (calculated : Calculated p met v x) (same : ∀ b n, met b n ↔ met' b n) :
    Calculated p met' v x := by
  have equal : met = met' := by
    funext b n
    exact propext (same b n)
  rwa [equal] at calculated

theorem map (calculated : Calculated p met v x) (f : Rat → Rat) :
    Calculated p met (f v) (f <$> x) := by
  cases calculated with
  | value defined => exact .value defined
  | refused power refusal => exact .refused power refusal

/-- One step after another meets the powers of both. -/
theorem bind {f : Rat → Except Error Rat} (first : Calculated p met v x)
    (second : Calculated p met' w (f v)) :
    Calculated p (fun b n => met b n ∨ met' b n) w (x >>= f) := by
  cases first with
  | value defined =>
    change Calculated p _ w (f v)
    generalize f v = y at second
    cases second with
    | value defined' => exact .value fun b n power => power.elim (defined b n) (defined' b n)
    | refused power refusal => exact .refused (.inr power) refusal
  | refused power refusal => exact .refused (.inl power) refusal

end Calculated

section Calculations

variable {p : Point}

theorem calculated_integerPower (b : Expr) {n : Int} (nonzero : n ≠ 0) :
    Calculated p (fun c m => n ≠ 1 ∧ c = b ∧ m = n) (p.value b ^ n)
      (integerPower (p.value b) n) := by
  unfold integerPower
  split
  · rename_i one
    rw [one, zpow_one]
    exact .value fun c m power => absurd rfl power.1
  · rename_i other
    rcases exactPower_cases (p.value b) nonzero with ⟨defined, found⟩ | ⟨c, refusal, found⟩
    · rw [found]
      refine .value ?_
      rintro c m ⟨_, rfl, rfl⟩
      exact defined
    · rw [found]
      exact .refused ⟨other, rfl, rfl⟩ refusal

theorem calculated_terms {terms : List Multiple}
    (each : ∀ t q, (t, q) ∈ terms → Calculated p t.HasPower (p.value t) (p.evaluate t)) :
    Calculated p (fun b n => ∃ t q, (t, q) ∈ terms ∧ t.HasPower b n)
      (p.interpretation.valueOfTerms terms) (p.evaluateTerms terms) := by
  induction terms with
  | nil =>
    rw [valueOfTerms, Point.evaluateTerms]
    refine .value ?_
    rintro b n ⟨t, q, member, _⟩
    cases member
  | cons head rest ih =>
    obtain ⟨t, q⟩ := head
    have first := each t q (List.mem_cons_self ..)
    have later := ih fun u r member => each u r (List.mem_cons_of_mem _ member)
    rw [valueOfTerms, Point.evaluateTerms, Rat.cast_id]
    refine (first.bind (later.map (q * p.value t + ·))).congr fun b n => ?_
    simp only [List.mem_cons, Prod.mk.injEq, or_and_right, exists_or, exists_and_left, and_assoc,
      exists_eq_left]

theorem calculated_factors {factors : List Factor}
    (exponents : ∀ b e, (b, e) ∈ factors → ∃ n : Int, n ≠ 0 ∧ e = number n)
    (each : ∀ b e, (b, e) ∈ factors → Calculated p b.HasPower (p.value b) (p.evaluate b)) :
    Calculated p (fun c n => ∃ b e, (b, e) ∈ factors ∧
        (b.HasPower c n ∨ n ≠ 1 ∧ c = b ∧ e = number n))
      (p.interpretation.valueOfFactors factors) (p.evaluateFactors factors) := by
  induction factors with
  | nil =>
    rw [valueOfFactors, Point.evaluateFactors]
    refine .value ?_
    rintro b n ⟨c, e, member, _⟩
    cases member
  | cons head rest ih =>
    obtain ⟨b, e⟩ := head
    obtain ⟨n, nonzero, rfl⟩ := exponents b e (List.mem_cons_self ..)
    have first := each b _ (List.mem_cons_self ..)
    have power := calculated_integerPower (p := p) b nonzero
    have later := ih (fun c x member => exponents c x (List.mem_cons_of_mem _ member))
      fun c x member => each c x (List.mem_cons_of_mem _ member)
    rw [valueOfFactors_cons, Point.evaluateFactors, p.pow_number, p.value_number, Rat.num_intCast]
    refine (first.bind (power.bind (later.map (p.value b ^ n * ·)))).congr fun c m => ?_
    constructor
    · rintro (inner | ⟨raised, rfl, rfl⟩ | ⟨d, x, member, power⟩)
      · exact ⟨b, _, List.mem_cons_self .., .inl inner⟩
      · exact ⟨c, _, List.mem_cons_self .., .inr ⟨raised, rfl, rfl⟩⟩
      · exact ⟨d, x, List.mem_cons_of_mem _ member, power⟩
    · rintro ⟨d, x, member, power⟩
      rcases List.mem_cons.mp member with same | member
      · cases same
        rcases power with inner | ⟨raised, rfl, same⟩
        · exact .inl inner
        · obtain rfl : n = m := by exact_mod_cast number.inj same
          exact .inr (.inl ⟨raised, rfl, rfl⟩)
      · exact .inr (.inr ⟨d, x, member, power⟩)

/-- A calculation ends with the value or at one of the powers in the expression. -/
theorem calculated_evaluate {e : Expr} (canonical : e.Canonical) (arithmetic : e.Arithmetic) :
    Calculated p e.HasPower (p.value e) (p.evaluate e) := by
  induction e using Expr.induction with
  | number q =>
    rw [p.value_number, Point.evaluate]
    exact .value fun b n power => by cases power
  | symbol name =>
    rw [Point.evaluate]
    exact .value fun b n power => by cases power
  | sum constant terms ih =>
    cases canonical with
    | sum form terms_canonical =>
      cases arithmetic with
      | sum each =>
        have calculated := calculated_terms fun t q stored =>
          ih t q stored (terms_canonical t q stored) (each t q stored)
        have whole : p.value (sum constant terms) =
            constant + p.interpretation.valueOfTerms terms := by
          rw [Point.value, Interpretation.value, Rat.cast_id]
        rw [whole, Point.evaluate]
        refine (calculated.map (constant + ·)).congr fun b n => ⟨?_, ?_⟩
        · rintro ⟨t, q, stored, inner⟩
          exact .inTerm stored inner
        · rintro (_ | _ | ⟨stored, inner⟩)
          exact ⟨_, _, stored, inner⟩
  | product q factors ih =>
    obtain ⟨_, _, kept⟩ := canonical_product_iff.mp canonical
    cases arithmetic with
    | product bases exponents =>
      have parts := calculated_factors (p := p) (fun b e stored => ?_) fun b e stored =>
        (ih b e stored).1 (kept.bases_canonical b e stored) (bases b e stored)
      · have whole : p.value (product q factors) =
            q * p.interpretation.valueOfFactors factors := p.interpretation.value_product q factors
        rw [whole, Point.evaluate]
        refine (parts.map (q * ·)).congr fun c n => ⟨?_, ?_⟩
        · rintro ⟨b, e, stored, inner | ⟨raised, rfl, rfl⟩⟩
          · exact .inFactor stored inner
          · exact .factor stored raised
        · rintro (_ | ⟨stored, raised⟩ | _ | ⟨stored, inner⟩)
          · exact ⟨_, _, stored, .inr ⟨raised, rfl, rfl⟩⟩
          · exact ⟨_, _, stored, .inl inner⟩
      · obtain ⟨n, rfl⟩ := exponents b e stored
        refine ⟨n, fun zero => (kept.factor b _ stored).exponent ?_, rfl⟩
        rw [zero, Int.cast_zero]
  | power b e base _ =>
    cases canonical with
    | power form base_canonical exponent_canonical =>
      cases arithmetic with
      | @power _ n inner =>
        have nonzero : n ≠ 0 := fun zero =>
          form.exponent_ne_zero (by rw [zero, Int.cast_zero])
        have other : n ≠ 1 := fun one => form.exponent_ne_one (by rw [one, Int.cast_one])
        have whole : p.value (power b (number n)) = p.value b ^ n := by
          rw [Point.value, p.interpretation.value_power, p.pow_number]
        rw [whole, Point.evaluate, p.value_number, Rat.num_intCast]
        refine ((base base_canonical inner).bind (calculated_integerPower b nonzero)).congr
          fun c m => ?_
        rw [hasPower_power_iff]
        refine or_congr_right ⟨?_, ?_⟩
        · rintro ⟨_, rfl, rfl⟩
          exact ⟨rfl, rfl⟩
        · rintro ⟨rfl, same⟩
          exact ⟨other, rfl, (by exact_mod_cast number.inj same : n = m).symm⟩
  | _ => cases arithmetic

theorem PowerRefused.not_defined {v : Rat} {n : Int} {c : Error} (refused : PowerRefused v n c) :
    ¬ PowerDefined v n := by
  intro defined
  cases refused with
  | zeroBase zero negative => exact defined.base negative zero
  | tooLarge large => exact defined.small large

/-- There is a value to calculate exactly when all powers are defined. -/
theorem evaluate_eq_ok_iff {e : Expr} (canonical : e.Canonical) (arithmetic : e.Arithmetic)
    {v : Rat} : p.evaluate e = .ok v ↔
      (∀ b n, e.HasPower b n → PowerDefined (p.value b) n) ∧ v = p.value e := by
  have calculated := calculated_evaluate (p := p) canonical arithmetic
  generalize p.evaluate e = x at calculated
  cases calculated with
  | value defined =>
    rw [Except.ok.injEq, eq_comm]
    exact ⟨fun same => ⟨defined, same⟩, fun found => found.2⟩
  | refused power refusal =>
    constructor
    · intro found
      cases found
    · intro found
      exact absurd (found.1 _ _ power) refusal.not_defined

theorem exists_power_of_evaluate {e : Expr} (canonical : e.Canonical) (arithmetic : e.Arithmetic)
    {c : Error} (refused : p.evaluate e = .error c) :
    ∃ b n, e.HasPower b n ∧ PowerRefused (p.value b) n c := by
  have calculated := calculated_evaluate (p := p) canonical arithmetic
  rw [refused] at calculated
  cases calculated with
  | refused power refusal => exact ⟨_, _, power, refusal⟩

end Calculations

end SymbolicAlgebra
