import SymbolicAlgebra.Proofs.IntegerPowers
import SymbolicAlgebra.Proofs.RenamedDerivatives

namespace SymbolicAlgebra

open SymbolicAlgebra.Expr

namespace Expr

/-- Every power and every factor of a product, at every depth, has an integer for its exponent. -/
inductive IntegerExponents : Expr → Prop where
  | number (q) : IntegerExponents (number q)
  | symbol (name) : IntegerExponents (symbol name)
  | sum {constant terms} (each : ∀ t q, (t, q) ∈ terms → IntegerExponents t) :
      IntegerExponents (sum constant terms)
  | product {q factors} (bases : ∀ b e, (b, e) ∈ factors → IntegerExponents b)
      (exponents : ∀ b e, (b, e) ∈ factors → ∃ n : Int, e = Expr.number n) :
      IntegerExponents (product q factors)
  | power {b} {n : Int} (base : IntegerExponents b) : IntegerExponents (power b (Expr.number n))
  | sin {a} (argument : IntegerExponents a) : IntegerExponents (sin a)
  | cos {a} (argument : IntegerExponents a) : IntegerExponents (cos a)
  | apply {name a} (argument : IntegerExponents a) : IntegerExponents (apply name a)
  | derivative {a names} (target : IntegerExponents a) : IntegerExponents (derivative a names)

/-- A canonical expression with integer exponents only. -/
structure IntegerPowered (e : Expr) : Prop where
  canonical : e.Canonical
  exponents : e.IntegerExponents

end Expr

/-- A factor with an integer exponent, which is left standing over its base. -/
structure IntegerFactor (factor : Factor) : Prop where
  base : factor.1.IntegerExponents
  free : ¬ factor.1.raisesInside = true
  exponent : ∃ n : Int, factor.2 = number n

/-- The exponents in an expression are those of its factors and those in their bases. -/
theorem integerExponents_iff {e : Expr} (canonical : e.Canonical) :
    e.IntegerExponents ↔ ∀ factor ∈ e.factorPart, IntegerFactor factor := by
  have free {b : Expr} {n : Int} (stored : (b, number n) ∈ e.factorPart) :
      ¬ b.raisesInside = true :=
    not_raisesInside_of_canonicalFactor (canonical.factorPart.2 b _ stored).1
  have bare (part : e.factorPart = [(e, number 1)]) :
      e.IntegerExponents ↔ ∀ factor ∈ e.factorPart, IntegerFactor factor := by
    have one : (e, number ((1 : Int) : Rat)) ∈ e.factorPart := by simp [part]
    rw [part, List.forall_mem_singleton]
    exact ⟨fun integer => ⟨integer, free one, 1, by simp⟩, fun factor => factor.base⟩
  cases e with
  | number q => exact ⟨fun _ => List.forall_mem_nil _, fun _ => .number q⟩
  | product q factors =>
    constructor
    · rintro (_ | _ | _ | ⟨bases, exponents⟩) ⟨b, x⟩ stored
      obtain ⟨n, rfl⟩ := exponents b x stored
      exact ⟨bases b _ stored, free stored, n, rfl⟩
    · exact fun every => .product (fun b x stored => (every (b, x) stored).base)
        fun b x stored => (every (b, x) stored).exponent
  | power b x =>
    constructor
    · rintro (_ | _ | _ | _ | base)
      exact List.forall_mem_singleton.mpr ⟨base, free (List.mem_singleton_self _), _, rfl⟩
    · intro every
      obtain ⟨base, _, n, rfl⟩ := List.forall_mem_singleton.mp every
      exact .power base
  | _ => exact bare rfl

theorem integerPowered_number (q : Rat) : (number q).IntegerPowered :=
  ⟨canonical_number q, .number q⟩

theorem Expr.IntegerPowered.factorPart {e : Expr} (integer : e.IntegerPowered) :
    ∀ factor ∈ e.factorPart, IntegerFactor factor :=
  (integerExponents_iff integer.canonical).mp integer.exponents

theorem integerExponents_withCoefficient {q : Rat} {factors : List Factor}
    (kept : KeptFactors factors) (every : ∀ factor ∈ factors, IntegerFactor factor) :
    (withCoefficient q factors).IntegerExponents := by
  by_cases zero : q = 0
  · rw [zero, withCoefficient_zero]
    exact .number 0
  · rw [integerExponents_iff (kept.canonical_withCoefficient q),
      kept.factorPart_withCoefficient zero]
    exact every

theorem Expr.IntegerPowered.scale {e : Expr} (integer : e.IntegerPowered) (q : Rat) :
    (e.scale q).IntegerPowered := by
  have factors := integer.factorPart
  obtain ⟨canonical, exponents⟩ := integer
  refine ⟨canonical.scale q, ?_⟩
  by_cases zero : q = 0
  · rw [zero, scale_zero]
    exact .number 0
  cases canonical.shape with
  | number r =>
    rw [scale_number]
    exact .number _
  | sum form each =>
    rw [scale_sum zero]
    refine .sum fun t r stored => ?_
    obtain ⟨⟨u, s⟩, inside, same⟩ := List.mem_map.mp stored
    cases same
    cases exponents with
    | sum terms => exact terms t s inside
  | multiple nonzero kept =>
    rw [kept.factorPart_withCoefficient nonzero] at factors
    rw [kept.scale_withCoefficient]
    exact integerExponents_withCoefficient kept factors

theorem Expr.IntegerPowered.termPart {e t : Expr} {q : Rat} (integer : e.IntegerPowered)
    (stored : (t, q) ∈ e.termPart) : t.IntegerExponents := by
  have factors := integer.factorPart
  obtain ⟨canonical, exponents⟩ := integer
  cases canonical.shape with
  | number r => cases stored
  | sum form each =>
    cases exponents with
    | sum terms => exact terms t q stored
  | multiple nonzero kept =>
    rw [kept.termPart_withCoefficient nonzero] at stored
    rw [kept.factorPart_withCoefficient nonzero] at factors
    cases List.mem_singleton.mp stored
    exact integerExponents_withCoefficient kept factors

/-- Exponents are added and multiplied among the integers, over bases that stay what they are. -/
theorem factorLaws_integerFactor : FactorLaws IntegerFactor where
  merge b e f _ _ first second := by
    obtain ⟨base, free, m, rfl⟩ := first
    obtain ⟨_, _, n, rfl⟩ := second
    exact ⟨base, free, m + n, by rw [sumOf_numbers, Int.cast_add]⟩
  inside canonical factor c f member := by
    obtain ⟨base, free, m, rfl⟩ := (integerExponents_iff canonical).mp factor.base _ member
    exact ⟨base, free, _, scale_integers _ m⟩
  multiple {c terms q} nonzero factor := by
    obtain ⟨_ | _ | ⟨each⟩, _, _⟩ := factor
    rw [scale_sum nonzero]
    refine ⟨.sum fun t r stored => ?_, Bool.false_ne_true, 1, by simp⟩
    obtain ⟨⟨u, s⟩, inside, same⟩ := List.mem_map.mp stored
    cases same
    exact each t s inside

theorem IntegerFactor.canonicalFactor {b e : Expr} (factor : IntegerFactor (b, e))
    (nonzero : e ≠ number 0) : CanonicalFactor b e := by
  obtain ⟨_, free, n, rfl⟩ := factor
  refine canonicalFactor_of_not_raisesInside free ?_
  rintro rfl
  exact nonzero (by simp)

section Operands

variable {operands : List Expr} (integer : ∀ e ∈ operands, e.IntegerPowered)

include integer

theorem integerPowered_sumOf : (sumOf operands).IntegerPowered := by
  have canonical := fun e member => (integer e member).canonical
  have terms : ∀ t q, (t, q) ∈ (sumOf operands).termPart → t.IntegerExponents := by
    intro t q member
    obtain ⟨e, summand, r, part⟩ := exists_of_mem_termPart_sumOf canonical member
    exact (integer e summand).termPart part
  have total := canonical_sumOf canonical
  refine ⟨total, ?_⟩
  generalize sumOf operands = e at total terms ⊢
  cases total.shape with
  | number q => exact .number q
  | sum form each => exact .sum terms
  | multiple nonzero kept =>
    rw [kept.termPart_withCoefficient nonzero] at terms
    have unit := terms _ _ (List.mem_singleton_self _)
    rw [integerExponents_iff (kept.canonical_withCoefficient 1),
      kept.factorPart_withCoefficient one_ne_zero] at unit
    exact integerExponents_withCoefficient kept unit

/-- Every merged factor is left standing, so that the product takes a single pass. -/
theorem exists_productOf_of_integerPowered :
    ∃ r, (productOf operands : Except Error Expr) = .ok r ∧ r.IntegerPowered := by
  have canonical := fun e member => (integer e member).canonical
  have every : ∀ factor ∈ operands.flatMap Expr.factorPart, IntegerFactor factor :=
    List.forall_mem_flatMap.mpr fun e member => (integer e member).factorPart
  have merged := factorLaws_integerFactor.merge.mergedFactors canonical every
  have found := @productOf_of_canonicalFactors operands fun b e member =>
    (merged (b, e) member).canonicalFactor (mem_mergedFactors_iff.mp member).2
  have total := canonical_productOf found canonical
  have run := productOf_eq_ok_iff.mp found
  have factors := run.everyFactor factorLaws_integerFactor canonical every
  exact ⟨_, found, total, (integerExponents_iff total).mpr factors⟩

end Operands

theorem exists_powerOf_of_integerPowered {b : Expr} (integer : b.IntegerPowered)
    (free : ¬ b.raisesInside = true) (n : Int) :
    ∃ r, (powerOf b (number n) : Except Error Expr) = .ok r ∧ r.IntegerPowered := by
  by_cases zero : n = 0
  · have nonzero : b ≠ number 0 := by
      rintro rfl
      exact free rfl
    refine ⟨number 1, ?_, integerPowered_number 1⟩
    rw [zero, Int.cast_zero, powerOf_exponent_zero nonzero]
  · have factor := canonicalFactor_of_not_raisesInside free zero
    have total := canonical_ofFactor factor integer.canonical (canonical_number n)
    refine ⟨_, powerOf_of_canonicalFactor factor, total, (integerExponents_iff total).mpr ?_⟩
    rw [factorPart_ofFactor factor]
    exact List.forall_mem_singleton.mpr ⟨integer.exponents, free, n, rfl⟩

section Derivatives

variable {x : String}

/-- The derivative is found, and has integer exponents again. -/
def Expr.HasIntegerDerivative (x : String) (e : Expr) : Prop :=
  ∃ d, (derivativeBy x e : Except Error Expr) = .ok d ∧ d.IntegerPowered

theorem hasIntegerDerivative_power {b : Expr} {n : Int} (integer : b.IntegerPowered)
    (free : ¬ b.raisesInside = true) (base : b.HasIntegerDerivative x) :
    (power b (number n)).HasIntegerDerivative x := by
  obtain ⟨d, derived, slope⟩ := base
  rw [HasIntegerDerivative, derivativeBy_power_of_free (by rw [hasSymbol])]
  by_cases zero : d.isZero
  · exact ⟨number 0, bind_eq_ok_iff.mpr ⟨d, derived, if_pos zero⟩, integerPowered_number 0⟩
  · obtain ⟨reduced, raised, lower⟩ := exists_powerOf_of_integerPowered integer free (n + -1)
    obtain ⟨r, found, whole⟩ := @exists_productOf_of_integerPowered [number n, reduced, d]
      (by simp [integerPowered_number, lower, slope])
    refine ⟨r, bind_eq_ok_iff.mpr ⟨d, derived, (if_neg zero).trans ?_⟩, whole⟩
    rw [sumOf_numbers]
    exact bind_eq_ok_iff.mpr ⟨reduced, by exact_mod_cast raised, found⟩

theorem hasIntegerDerivative_ofFactor {factor : Factor} (form : IntegerFactor factor)
    (canonical : factor.1.Canonical) (base : factor.1.HasIntegerDerivative x) :
    (ofFactor factor).HasIntegerDerivative x := by
  obtain ⟨b, e⟩ := factor
  obtain ⟨exponents, free, n, rfl⟩ := form
  unfold ofFactor
  split
  · exact base
  · exact hasIntegerDerivative_power ⟨canonical, exponents⟩ free base

theorem hasIntegerDerivative_sum {constant : Rat} {terms : List Multiple}
    (each : ∀ t q, (t, q) ∈ terms → t.HasIntegerDerivative x) :
    (sum constant terms).HasIntegerDerivative x := by
  rw [HasIntegerDerivative, derivativeBy_sum]
  obtain ⟨slopes, derived, integer⟩ := exists_mapM_forall (P := IntegerPowered)
    fun multiple (stored : multiple ∈ terms) => by
      obtain ⟨d, derived, slope⟩ := each multiple.1 multiple.2 stored
      exact ⟨_, map_eq_ok_iff.mpr ⟨d, derived, rfl⟩, slope.scale multiple.2⟩
  exact ⟨_, map_eq_ok_iff.mpr ⟨slopes, derived, rfl⟩, integerPowered_sumOf integer⟩

theorem exists_partSummand (q : Rat) {parts : List Expr} {part : Expr}
    (integer : ∀ part ∈ parts, part.IntegerPowered) (derives : part.HasIntegerDerivative x) :
    ∃ r, partSummand x q parts part = .ok r ∧ r.IntegerPowered := by
  obtain ⟨d, derived, slope⟩ := derives
  by_cases zero : d.isZero
  · exact ⟨number 0, bind_eq_ok_iff.mpr ⟨d, derived, if_pos zero⟩, integerPowered_number 0⟩
  · have operands : ∀ e ∈ number q :: parts.erase part ++ [d], e.IntegerPowered :=
      List.forall_mem_append.mpr ⟨List.forall_mem_cons.mpr ⟨integerPowered_number q,
        fun other inside => integer other (List.mem_of_mem_erase inside)⟩,
        List.forall_mem_singleton.mpr slope⟩
    obtain ⟨r, found, whole⟩ := exists_productOf_of_integerPowered operands
    exact ⟨r, bind_eq_ok_iff.mpr ⟨d, derived, (if_neg zero).trans found⟩, whole⟩

theorem hasIntegerDerivative_product {q : Rat} {factors : List Factor}
    (integer : (product q factors).IntegerPowered)
    (each : ∀ b e, (b, e) ∈ factors → b.HasIntegerDerivative x) :
    (product q factors).HasIntegerDerivative x := by
  obtain ⟨_, _, kept⟩ := canonical_product_iff.mp integer.canonical
  have parts : ∀ part ∈ partsOf factors, part.IntegerPowered ∧ part.HasIntegerDerivative x := by
    intro part member
    have canonical := kept.canonical_partsOf part member
    obtain ⟨⟨b, e⟩, stored, rfl⟩ := List.mem_map.mp member
    have factor := integer.factorPart (b, e) stored
    refine ⟨⟨canonical, (integerExponents_iff canonical).mpr ?_⟩,
      hasIntegerDerivative_ofFactor factor (kept.bases_canonical b e stored) (each b e stored)⟩
    rw [factorPart_ofFactor (kept.factor b e stored)]
    exact List.forall_mem_singleton.mpr factor
  obtain ⟨summands, found, summands_integer⟩ := exists_mapM_forall fun part member =>
    exists_partSummand q (fun other inside => (parts other inside).1) (parts part member).2
  rw [HasIntegerDerivative, derivativeBy_product_parts kept]
  exact ⟨_, map_eq_ok_iff.mpr ⟨summands, found, rfl⟩, integerPowered_sumOf summands_integer⟩

/-- The chain rule multiplies with the derivative of the argument. -/
theorem exists_chain {a outer : Expr} (others : List Expr) (argument : a.HasIntegerDerivative x)
    (integer : ∀ e ∈ outer :: others, e.IntegerPowered) :
    ∃ r, (do
      let slope ← derivativeBy x a
      productOf (outer :: others ++ [slope]) : Except Error Expr) = .ok r ∧ r.IntegerPowered := by
  obtain ⟨d, derived, slope⟩ := argument
  obtain ⟨r, found, whole⟩ := @exists_productOf_of_integerPowered (outer :: others ++ [d])
    (List.forall_mem_append.mpr ⟨integer, List.forall_mem_singleton.mpr slope⟩)
  exact ⟨r, bind_eq_ok_iff.mpr ⟨d, derived, found⟩, whole⟩

/-- By induction on the expression: every node hands on that the derivatives of its parts are
found. -/
theorem Expr.IntegerPowered.hasIntegerDerivative {e : Expr} (integer : e.IntegerPowered) :
    e.HasIntegerDerivative x := by
  obtain ⟨canonical, exponents⟩ := integer
  induction e using Expr.induction with
  | number q => exact ⟨_, derivativeBy_number q, integerPowered_number 0⟩
  | symbol name =>
    rw [HasIntegerDerivative, derivativeBy]
    exact ⟨_, rfl, integerPowered_number _⟩
  | sum constant terms ih =>
    cases canonical with
    | sum form terms_canonical =>
      cases exponents with
      | sum each =>
        exact hasIntegerDerivative_sum fun t q stored =>
          ih t q stored (terms_canonical t q stored) (each t q stored)
  | product q factors ih =>
    have integer : (product q factors).IntegerPowered := ⟨canonical, exponents⟩
    cases canonical with
    | product form bases_canonical _ =>
      cases exponents with
      | product bases _ =>
        exact hasIntegerDerivative_product integer fun b e stored =>
          (ih b e stored).1 (bases_canonical b e stored) (bases b e stored)
  | power b e base _ =>
    cases canonical with
    | power form base_canonical _ =>
      cases exponents with
      | power inner =>
        exact hasIntegerDerivative_power ⟨base_canonical, inner⟩
          (not_raisesInside_of_canonicalFactor (canonicalFactor_iff.mpr (.inr form)))
          (base base_canonical inner)
  | sin a ih =>
    cases canonical with
    | sin form argument =>
      cases exponents with
      | sin inner =>
        have outer : cosineOf a = cos a := if_neg (mt isNumber_iff.mp form)
        rw [HasIntegerDerivative, derivativeBy_sin, outer]
        exact exists_chain [] (ih argument inner)
          (List.forall_mem_singleton.mpr ⟨.cos form argument, .cos inner⟩)
  | cos a ih =>
    cases canonical with
    | cos form argument =>
      cases exponents with
      | cos inner =>
        have outer : sineOf a = sin a := if_neg (mt isNumber_iff.mp form)
        rw [HasIntegerDerivative, derivativeBy_cos, outer]
        exact exists_chain [sin a] (ih argument inner)
          (List.forall_mem_cons.mpr ⟨integerPowered_number (-1),
            List.forall_mem_singleton.mpr ⟨.sin form argument, .sin inner⟩⟩)
  | apply name a ih =>
    have whole : (derivative (apply name a) [x]).IntegerPowered :=
      ⟨.derivative (by simp) canonical, .derivative exponents⟩
    cases canonical with
    | apply argument =>
      cases exponents with
      | apply inner =>
        obtain ⟨d, derived, _⟩ := ih argument inner
        rw [HasIntegerDerivative, derivativeBy_apply, derived]
        by_cases zero : d.isZero
        · exact ⟨number 0, if_pos zero, integerPowered_number 0⟩
        · exact ⟨_, if_neg zero, whole⟩
  | derivative a names _ =>
    cases canonical with
    | derivative form target =>
      cases exponents with
      | derivative inner =>
        exact ⟨_, derivativeBy_derivative a names, .derivative (by simp) target, .derivative inner⟩

end Derivatives

/-- Among expressions with integer exponents no product and no derivative is refused, and what they
give has integer exponents again. -/
theorem integerPowered_closed (x : String) {operands : List Expr} {e : Expr}
    (integer_operands : ∀ o ∈ operands, o.IntegerPowered) (integer : e.IntegerPowered) :
    (∃ r, (productOf operands : Except Error Expr) = .ok r ∧ r.IntegerPowered) ∧
      ∃ d, (differentiate e (symbol x) : Except Error Expr) = .ok d ∧ d.IntegerPowered :=
  ⟨exists_productOf_of_integerPowered integer_operands, integer.hasIntegerDerivative⟩

/-- In the product the powers of `x` cancel beside a function of a reciprocal, and the reciprocal is
differentiated. -/
theorem integerPowered_closed_reciprocal :
    (∃ r, (productOf [power (symbol "x") (number 2), power (symbol "x") (number (-2)),
        apply "f" (power (sum 1 [(symbol "x", 1)]) (number (-1)))] : Except Error Expr) = .ok r ∧
        r.IntegerPowered) ∧
      ∃ d, (differentiate (power (sum 1 [(symbol "x", 1)]) (number (-1))) (symbol "x") :
        Except Error Expr) = .ok d ∧ d.IntegerPowered := by
  have square : (power (symbol "x") (number 2)).IntegerPowered :=
    ⟨@canonical_powerOf (symbol "x") (number 2) _ (by cbv) (.symbol "x") (canonical_number _),
      .power (n := 2) (.symbol "x")⟩
  have inverse : (power (symbol "x") (number (-2))).IntegerPowered :=
    ⟨@canonical_powerOf (symbol "x") (number (-2)) _ (by cbv) (.symbol "x") (canonical_number _),
      .power (n := -2) (.symbol "x")⟩
  have successor : (sum 1 [(symbol "x", 1)]).IntegerExponents := by
    refine .sum fun t q stored => ?_
    cases List.mem_singleton.mp stored
    exact .symbol "x"
  have reciprocal : (power (sum 1 [(symbol "x", 1)]) (number (-1))).IntegerPowered :=
    ⟨@canonical_powerOf _ (number (-1)) _ (by cbv) (canonical_successor "x") (canonical_number _),
      .power (n := -1) successor⟩
  refine integerPowered_closed "x" (List.forall_mem_cons.mpr ⟨square, List.forall_mem_cons.mpr
    ⟨inverse, List.forall_mem_singleton.mpr ⟨.apply reciprocal.canonical, ?_⟩⟩⟩) reciprocal
  exact .apply reciprocal.exponents

end SymbolicAlgebra
