import SymbolicAlgebra.Proofs.Calculation
import SymbolicAlgebra.Proofs.DerivativeLaws
import SymbolicAlgebra.Proofs.SymbolSubstitution

namespace SymbolicAlgebra

open SymbolicAlgebra.Expr

section Numbers

theorem productOf_map_number (vs : List Rat) :
    (productOf (vs.map number) : Except Error Expr) = .ok (number vs.prod) := by
  have coefficient : collectCoefficient (vs.map number) = vs.prod := by
    induction vs with
    | nil => rfl
    | cons v rest ih => rw [List.map_cons, collectCoefficient, ih, List.prod_cons, coefficientPart]
  have parts : (vs.map number).flatMap factorPart = [] := by
    simp [List.flatMap_map, factorPart]
  have product := productOf_eq_scale (canonical_number 1)
    (coefficient.trans (mul_one _).symm) parts
  rwa [scale_number, mul_one] at product

end Numbers

section Evaluate

variable (p : Point)

theorem Point.evaluateTerms_eq (terms : List Multiple) : p.evaluateTerms terms =
    List.sum <$> terms.mapM fun multiple => (multiple.2 * ·) <$> p.evaluate multiple.1 := by
  induction terms with
  | nil => rfl
  | cons head rest ih =>
    rw [evaluateTerms, ih, List.mapM_cons]
    cases p.evaluate head.1 with
    | error cause => rfl
    | ok v => cases rest.mapM fun multiple => (multiple.2 * ·) <$> p.evaluate multiple.1 <;> rfl

def Point.evaluateFactor (factor : Factor) : Except Error Rat := do
  integerPower (← p.evaluate factor.1) (p.value factor.2).num

theorem Point.evaluateFactors_eq (factors : List Factor) : p.evaluateFactors factors =
    List.prod <$> factors.mapM p.evaluateFactor := by
  induction factors with
  | nil => rfl
  | cons head rest ih =>
    obtain ⟨b, e⟩ := head
    rw [evaluateFactors, ih, List.mapM_cons, evaluateFactor]
    cases p.evaluate b with
    | error cause => rfl
    | ok v =>
      change (integerPower v _ >>= _) = List.prod <$> (integerPower v _ >>= _)
      cases integerPower v (p.value e).num with
      | error cause => rfl
      | ok u => cases rest.mapM p.evaluateFactor <;> rfl

theorem Point.evaluate_factor_one (e : Expr) :
    p.evaluateFactor (e, number 1) = p.evaluate e := by
  rw [evaluateFactor, p.value_number]
  exact bind_pure _

/-- A term is calculated as the product of its factors. -/
theorem Point.evaluate_eq_evaluateFactors {t : Expr} (arithmetic : t.Arithmetic) (term : t.IsTerm) :
    p.evaluate t = p.evaluateFactors t.factorPart := by
  have lone (factor : Factor) : p.evaluateFactors [factor] = p.evaluateFactor factor := by
    rw [p.evaluateFactors_eq, List.mapM_cons, List.mapM_nil]
    cases p.evaluateFactor factor with
    | error cause => rfl
    | ok v => exact congrArg Except.ok (mul_one v)
  cases arithmetic with
  | symbol name =>
    exact ((lone (Expr.symbol name, number 1)).trans (p.evaluate_factor_one _)).symm
  | @power b n base =>
    rw [evaluate]
    exact (lone (b, Expr.number n)).symm
  | @product q factors bases exponents =>
    obtain rfl : q = 1 := term
    rw [evaluate, factorPart]
    simp only [one_mul]
    exact id_map _
  | _ => exact absurd term id

end Evaluate

theorem Expr.Arithmetic.factorPart {e : Expr} (arithmetic : e.Arithmetic) {b x : Expr}
    (member : (b, x) ∈ e.factorPart) : b.Arithmetic ∧ ∃ n : Int, x = Expr.number n := by
  rcases mem_factorPart_cases member with ⟨q, factors, rfl, stored⟩ | rfl | ⟨rfl, rfl⟩
  · cases arithmetic with
    | product bases exponents => exact ⟨bases b x stored, exponents b x stored⟩
  · cases arithmetic with
    | power base => exact ⟨base, _, rfl⟩
  · exact ⟨arithmetic, 1, by rw [Int.cast_one]⟩

/-- All symbols of the expression are replaced. -/
def Substitution.Covers (map : Substitution Expr) (e : Expr) : Prop :=
  ∀ name, e.hasSymbol name = true → map.HasKey (symbol name)

/-- All replacements are numbers. -/
def Substitution.OnlyNumbers (map : Substitution Expr) : Prop :=
  ∀ pair ∈ map, ∃ q, pair.2 = number q

/-- The point at which the symbols have the numbers that replace them. -/
def Substitution.point (map : Substitution Expr) : Point where
  symbol name := ((map.find (symbol name)).bind number?).getD 0
  sine := id
  cosine := id

section Covered

variable {map : Substitution Expr}

theorem Substitution.Covers.term {constant : Rat} {terms : List Multiple} {t : Expr} {q : Rat}
    (covers : map.Covers (sum constant terms)) (stored : (t, q) ∈ terms) : map.Covers t := by
  intro name occurs
  refine covers name ?_
  rw [hasSymbol, ← Bool.not_eq_false, termsHaveSymbol_eq_false_iff]
  intro free
  rw [free t q stored] at occurs
  cases occurs

theorem Substitution.Covers.base {e b x : Expr} (covers : map.Covers e)
    (member : (b, x) ∈ e.factorPart) : map.Covers b := by
  rcases mem_factorPart_cases member with ⟨q, factors, rfl, stored⟩ | rfl | ⟨rfl, rfl⟩
  · intro name occurs
    refine covers name ?_
    rw [hasSymbol, ← Bool.not_eq_false, factorsHaveSymbol_eq_false_iff]
    intro free
    rw [(free b x stored).1] at occurs
    cases occurs
  · intro name occurs
    exact covers name (by rw [hasSymbol, occurs, Bool.true_or])
  · exact covers

variable (symbols : map.OnlySymbols) (numbers : map.OnlyNumbers)

include numbers

theorem Substitution.OnlyNumbers.canonical : map.Canonical := by
  intro pair member
  obtain ⟨q, same⟩ := numbers pair member
  rw [same]
  exact canonical_number q

theorem substitute_symbol {name : String} (listed : map.HasKey (symbol name)) :
    (substitute map (symbol name) : Except Error Expr) = .ok (number (map.point.symbol name)) := by
  cases found : map.find (symbol name) with
  | none => exact absurd listed (Substitution.find_eq_none_iff.mp found)
  | some r =>
    obtain ⟨q, same⟩ := numbers (symbol name, r) (Substitution.mem_of_find found)
    obtain rfl : r = number q := same
    have value : map.point.symbol name = q := by
      change ((map.find (symbol name)).bind number?).getD 0 = q
      rw [found]
      rfl
    rw [substitute_of_find found, value]

omit numbers in
include symbols in
theorem substitute_ofFactor {b : Expr} {n : Int} (factor : CanonicalFactor b (number n))
    (base : (substitute map b : Except Error Expr) = number <$> map.point.evaluate b) :
    (substitute map (ofFactor (b, number n)) : Except Error Expr) =
      number <$> map.point.evaluateFactor (b, number n) := by
  rcases canonicalFactor_iff.mp factor with ⟨one, _⟩ | form
  · rw [one, map.point.evaluate_factor_one]
    exact base
  · have nonzero : n ≠ 0 := by
      rintro rfl
      exact factor.exponent (by rw [Int.cast_zero])
    have unlisted : map.find (power b (number n)) = none := symbols.find_eq_none (by simp)
    rw [ofFactor_of_canonicalPower form, substitute_power form unlisted, base,
      substitute_number_of_onlySymbols symbols, Point.evaluateFactor, Point.value_number,
      Rat.num_intCast]
    cases map.point.evaluate b with
    | error cause => rfl
    | ok v => exact powerOf_numbers v nonzero

include symbols

theorem substitute_factors {q : Rat} {factors : List Factor} (kept : KeptFactors factors)
    (nonzero : q ≠ 0) (exponents : ∀ b x, (b, x) ∈ factors → ∃ n : Int, x = number n)
    (bases : ∀ b x, (b, x) ∈ factors →
      (substitute map b : Except Error Expr) = number <$> map.point.evaluate b) :
    (substitute map (withCoefficient q factors) : Except Error Expr) =
      (fun v => number (q * v)) <$> map.point.evaluateFactors factors := by
  have parts : (partsOf factors).mapM (substitute map) =
      List.map number <$> factors.mapM map.point.evaluateFactor := by
    rw [partsOf, List.mapM_map, ← mapM_map_result]
    refine mapM_congr fun factor stored => ?_
    obtain ⟨b, x⟩ := factor
    obtain ⟨n, rfl⟩ := exponents b x stored
    exact substitute_ofFactor symbols (kept.factor b _ stored) (bases b _ stored)
  rw [substitute_withCoefficient symbols numbers.canonical kept nonzero, parts,
    map.point.evaluateFactors_eq]
  cases factors.mapM map.point.evaluateFactor with
  | error cause => rfl
  | ok vs => exact productOf_map_number (q :: vs)

omit numbers in
theorem substitute_terms {constant : Rat} {terms : List Multiple}
    (canonical : (sum constant terms).Canonical) (each : ∀ t q, (t, q) ∈ terms →
      (substitute map (t.scale q) : Except Error Expr) =
        (fun v => number (q * v)) <$> map.point.evaluate t) :
    (substitute map (sum constant terms) : Except Error Expr) =
      number <$> map.point.evaluate (sum constant terms) := by
  obtain ⟨cs, constants, total⟩ := exists_constantSummands constant
  have multiples : (terms.map fun multiple => multiple.1.scale multiple.2).mapM (substitute map) =
      List.map number <$>
        terms.mapM fun multiple => (multiple.2 * ·) <$> map.point.evaluate multiple.1 := by
    rw [List.mapM_map, ← mapM_map_result]
    refine mapM_congr fun multiple stored => ?_
    rw [Functor.map_map]
    exact each multiple.1 multiple.2 stored
  have unchanged : (cs.map number).mapM (substitute map) =
      (.ok (cs.map number) : Except Error (List Expr)) := by
    rw [List.mapM_map]
    exact mapM_eq_ok_map fun c _ => substitute_number_of_onlySymbols symbols c
  rw [substitute_sum canonical (symbols.find_eq_none (by simp)), operands_sum, constants,
    List.mapM_append, multiples, unchanged, Point.evaluate, map.point.evaluateTerms_eq]
  cases terms.mapM fun multiple => (multiple.2 * ·) <$> map.point.evaluate multiple.1 with
  | error cause => rfl
  | ok vs =>
    have sums := sumOf_map_number (vs ++ cs)
    rw [List.map_append, List.sum_append, total, add_comm] at sums
    exact congrArg Except.ok sums

/-- To substitute numbers for all symbols is to calculate, step by step. -/
theorem substitute_eq_evaluate {e : Expr} (canonical : e.Canonical) (arithmetic : e.Arithmetic)
    (covers : map.Covers e) :
    (substitute map e : Except Error Expr) = number <$> map.point.evaluate e ∧
    (e.IsTerm → ∀ b x, (b, x) ∈ e.factorPart →
      (substitute map b : Except Error Expr) = number <$> map.point.evaluate b) := by
  induction e using Expr.induction with
  | number q => exact ⟨substitute_number_of_onlySymbols symbols q, fun term => absurd term id⟩
  | symbol name =>
    have whole := substitute_symbol numbers (covers name (by rw [hasSymbol]; exact beq_self_eq_true _))
    refine ⟨whole, fun _ b x member => ?_⟩
    cases List.mem_singleton.mp member
    exact whole
  | sum constant terms ih =>
    have each : ∀ t q, (t, q) ∈ terms → t.Arithmetic := by
      cases arithmetic with
      | sum each => exact each
    refine ⟨substitute_terms symbols canonical fun t q stored => ?_, fun term => absurd term id⟩
    have whole := canonical.valid_linearForm
    have term : t.IsTerm := whole.bare t q stored
    have free : t.Canonical := whole.canonical t q stored
    have inner := each t q stored
    rw [scale_eq_withCoefficient free term, map.point.evaluate_eq_evaluateFactors inner term]
    exact substitute_factors symbols numbers (free.keptFactors term)
      (whole.reduced.multiplicity t q stored) (fun b x member => (inner.factorPart member).2)
      ((ih t q stored free inner (covers.term stored)).2 term)
  | product q factors ih =>
    obtain ⟨nonzero, not_lone, kept⟩ := canonical_product_iff.mp canonical
    have bases : ∀ b x, (b, x) ∈ factors →
        (substitute map b : Except Error Expr) = number <$> map.point.evaluate b := fun b x stored =>
      ((ih b x stored).1 (kept.bases_canonical b x stored) (arithmetic.factorPart stored).1
        (covers.base stored)).1
    refine ⟨?_, fun _ => bases⟩
    rw [← withCoefficient_eq_product nonzero kept.nonempty not_lone,
      substitute_factors symbols numbers kept nonzero
        (fun b x stored => (arithmetic.factorPart stored).2) bases,
      withCoefficient_eq_product nonzero kept.nonempty not_lone, Point.evaluate, Functor.map_map]
  | power b x base _ =>
    have member := List.mem_singleton_self (b, x)
    obtain ⟨inner, n, rfl⟩ := arithmetic.factorPart member
    have factor := (canonical.factorPart.2 b _ member).1
    have found := (base (canonical.factorPart.2 b _ member).2.1 inner (covers.base member)).1
    have whole : ofFactor (b, number n) = power b (number n) := by
      cases canonical with
      | power form => exact ofFactor_of_canonicalPower form
    refine ⟨?_, fun _ c x stored => ?_⟩
    · rw [← whole, substitute_ofFactor symbols factor found, whole, Point.evaluate]
      rfl
    · cases List.mem_singleton.mp stored
      exact found
  | _ => cases arithmetic

end Covered

/-- The expression `3 + 2*x^2/(x + y)`. -/
def quotientPlusThree : Expr :=
  sum 3 [(product 1 [(symbol "x", number 2),
    (sum 0 [(symbol "x", 1), (symbol "y", 1)], number (-1))], 2)]

theorem canonical_quotientPlusThree : quotientPlusThree.Canonical := by
  have shifted : (sum 0 [(symbol "x", 1), (symbol "y", 1)]).Canonical :=
    (by cbv : sumOf [symbol "x", symbol "y"] = sum 0 [(symbol "x", 1), (symbol "y", 1)]) ▸
      canonical_sumOf_pair (.symbol "x") (.symbol "y")
  have square : (power (symbol "x") (number 2)).Canonical :=
    canonical_powerOf (by cbv) (.symbol "x") (canonical_number 2)
  have inverse : (power (sum 0 [(symbol "x", 1), (symbol "y", 1)]) (number (-1))).Canonical :=
    canonical_powerOf (by cbv) shifted (canonical_number (-1))
  have term : (product 2 [(symbol "x", number 2),
      (sum 0 [(symbol "x", 1), (symbol "y", 1)], number (-1))]).Canonical :=
    @canonical_productOf [number 2, _, _] _ (by cbv)
      (List.forall_mem_cons.mpr ⟨canonical_number 2, canonical_pair square inverse⟩)
  exact (by cbv : sumOf [number 3, product 2 [(symbol "x", number 2),
    (sum 0 [(symbol "x", 1), (symbol "y", 1)], number (-1))]] = quotientPlusThree) ▸
      canonical_sumOf_pair (canonical_number 3) term

theorem arithmetic_quotientPlusThree : quotientPlusThree.Arithmetic := by
  have shifted : (sum 0 [(symbol "x", 1), (symbol "y", 1)]).Arithmetic := by
    refine .sum ?_
    simp only [List.mem_cons, Prod.mk.injEq, List.not_mem_nil, or_false]
    rintro t q (⟨rfl, rfl⟩ | ⟨rfl, rfl⟩)
    · exact .symbol "x"
    · exact .symbol "y"
  refine .sum fun t q stored => ?_
  cases List.mem_singleton.mp stored
  refine .product ?_ ?_
  · simp only [List.mem_cons, Prod.mk.injEq, List.not_mem_nil, or_false]
    rintro b e (⟨rfl, rfl⟩ | ⟨rfl, rfl⟩)
    · exact .symbol "x"
    · exact shifted
  · simp only [List.mem_cons, Prod.mk.injEq, List.not_mem_nil, or_false]
    rintro b e (⟨rfl, rfl⟩ | ⟨rfl, rfl⟩)
    · exact ⟨2, rfl⟩
    · exact ⟨-1, rfl⟩

theorem covers_quotientPlusThree (v w : Rat) : Substitution.Covers
    [(symbol "x", number v), (symbol "y", number w)] quotientPlusThree := by
  intro name occurs
  have either : "x" = name ∨ "y" = name := by
    simpa [quotientPlusThree, hasSymbol, termsHaveSymbol, factorsHaveSymbol] using occurs
  rcases either with rfl | rfl
  · exact ⟨_, List.mem_cons_self .., rfl⟩
  · exact ⟨_, List.mem_cons_of_mem _ (List.mem_cons_self ..), rfl⟩

theorem onlySymbols_pair (x y : String) (v w : Rat) : Substitution.OnlySymbols
    [(symbol x, number v), (symbol y, number w)] := by
  simp [Substitution.OnlySymbols]

theorem onlyNumbers_pair (x y : String) (v w : Rat) : Substitution.OnlyNumbers
    [(symbol x, number v), (symbol y, number w)] := by
  simp [Substitution.OnlyNumbers]

/-- Numbers for all symbols give the exact value if all powers in the expression are defined. If not,
the cause is one of the powers that is not. -/
theorem substitute_numbers {map : Substitution Expr} (symbols : map.OnlySymbols)
    (numbers : map.OnlyNumbers) {e : Expr} (canonical : e.Canonical) (arithmetic : e.Arithmetic)
    (covers : map.Covers e) :
    (∀ r, (substitute map e : Except Error Expr) = .ok r ↔
      (∀ b n, e.HasPower b n → PowerDefined (map.point.value b) n) ∧
        r = number (map.point.value e)) ∧
    ∀ cause, (substitute map e : Except Error Expr) = .error cause →
      ∃ b n, e.HasPower b n ∧ PowerRefused (map.point.value b) n cause := by
  rw [(substitute_eq_evaluate symbols numbers canonical arithmetic covers).1]
  constructor
  · intro r
    simp only [map_eq_ok_iff, evaluate_eq_ok_iff canonical arithmetic]
    constructor
    · rintro ⟨v, ⟨defined, rfl⟩, rfl⟩
      exact ⟨defined, rfl⟩
    · rintro ⟨defined, rfl⟩
      exact ⟨_, ⟨defined, rfl⟩, rfl⟩
  · intro cause refused
    refine exists_power_of_evaluate canonical arithmetic ?_
    cases calculated : map.point.evaluate e with
    | ok v =>
      rw [calculated] at refused
      cases refused
    | error c =>
      rw [calculated] at refused
      cases refused
      rfl

/-- The value of `3 + 2*x^2/(x + y)` for three and minus one is twelve; for three and minus three
there is none. -/
theorem substitute_numbers_quotient :
    Point.value (Substitution.point [(symbol "x", number 3), (symbol "y", number (-1))])
        quotientPlusThree = 12 ∧
      ∃ b n, quotientPlusThree.HasPower b n ∧
        PowerRefused (Point.value
          (Substitution.point [(symbol "x", number 3), (symbol "y", number (-3))]) b) n
          .zeroToNonPositivePower := by
  have at_numbers (v w : Rat) := substitute_numbers (onlySymbols_pair "x" "y" v w)
    (onlyNumbers_pair "x" "y" v w) canonical_quotientPlusThree arithmetic_quotientPlusThree
    (covers_quotientPlusThree v w)
  constructor
  · have value := (((at_numbers 3 (-1)).1 (number 12)).mp (by cbv)).2
    exact (number.inj value).symm
  · exact (at_numbers 3 (-3)).2 _ (by cbv)

end SymbolicAlgebra
