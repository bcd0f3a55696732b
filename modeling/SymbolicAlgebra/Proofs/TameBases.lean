import SymbolicAlgebra.Substitution
import SymbolicAlgebra.Proofs.ValuePreservation

namespace SymbolicAlgebra

open SymbolicAlgebra.Expr

namespace Expr

theorem term_mem_parts {constant q : Rat} {terms : List Multiple} {t : Expr}
    (stored : (t, q) ∈ terms) : t ∈ (sum constant terms).parts :=
  List.mem_append_left _ (List.mem_map.mpr ⟨(t, q), stored, rfl⟩)

theorem base_mem_parts {q : Rat} {factors : List Factor} {b e : Expr}
    (stored : (b, e) ∈ factors) : b ∈ (product q factors).parts :=
  List.mem_append_left _ (List.mem_flatMap.mpr ⟨(b, e), stored, List.mem_cons_self ..⟩)

theorem exponent_mem_parts {q : Rat} {factors : List Factor} {b e : Expr}
    (stored : (b, e) ∈ factors) : e ∈ (product q factors).parts :=
  List.mem_append_left _ (List.mem_flatMap.mpr
    ⟨(b, e), stored, List.mem_cons_of_mem _ (List.mem_singleton_self _)⟩)

end Expr

namespace Interpretation

variable {K : Type*} [Field K] (I : Interpretation K)

/-- No zero base is met by raising the expression, nor by raising what is left of it when it is a
sum of which terms cancel. Terms that are zero are not looked into, and neither are exponents. -/
inductive Tame : Expr → Prop where
  | number (q) : Tame (number q)
  | symbol (name) : Tame (.symbol name)
  | sum {constant terms} (each : ∀ t q, (t, q) ∈ terms → I.value t ≠ 0 → Tame t) :
      Tame (sum constant terms)
  | product {q factors} (nonzero : ∀ b e, (b, e) ∈ factors → I.value b ≠ 0)
      (bases : ∀ b e, (b, e) ∈ factors → Tame b) : Tame (product q factors)
  | power {b e} (nonzero : I.value b ≠ 0) (base : Tame b) : Tame (power b e)
  | sin (a) : Tame (sin a)
  | cos (a) : Tame (cos a)
  | apply (name a) : Tame (apply name a)
  | derivative (a names) : Tame (.derivative a names)

/-- A base that can be raised, whatever is made of it. -/
structure TameBase (b : Expr) : Prop where
  nonzero : I.value b ≠ 0
  tame : I.Tame b

variable {I}

theorem NonzeroBases.part {e part : Expr} (bases : I.NonzeroBases e) (stored : part ∈ e.parts) :
    I.NonzeroBases part :=
  fun b base => bases b (.within stored base)

theorem NonzeroBases.tame {e : Expr} (bases : I.NonzeroBases e) : I.Tame e := by
  induction e using Expr.induction with
  | number q => exact .number q
  | symbol name => exact .symbol name
  | sum constant terms ih =>
    exact .sum fun t q stored _ => ih t q stored (bases.part (term_mem_parts stored))
  | product q factors ih =>
    exact .product (fun b e stored => bases b (.factor stored))
      fun b e stored => (ih b e stored).1 (bases.part (base_mem_parts stored))
  | power b e base _ => exact .power (bases b .power) (base (bases.part (List.mem_cons_self ..)))
  | sin a => exact .sin a
  | cos a => exact .cos a
  | apply name a => exact .apply name a
  | derivative a names => exact .derivative a names

theorem TameBase.factorPart {b : Expr} (base : I.TameBase b) :
    EveryBase I.TameBase b.factorPart := by
  have tame := base.tame
  cases tame with
  | number q => exact .nil
  | product each bases => exact fun c e stored => ⟨each c e stored, bases c e stored⟩
  | power each inner => exact .singleton ⟨each, inner⟩ _
  | _ => exact .singleton base _

theorem tame_of_factorPart {e : Expr} (every : EveryBase I.TameBase e.factorPart) : I.Tame e := by
  cases e with
  | number q => exact .number q
  | product q factors =>
    exact .product (fun b x stored => (every b x stored).nonzero)
      fun b x stored => (every b x stored).tame
  | power b x => exact .power every.head.nonzero every.head.tame
  | _ => exact every.head.tame

theorem Tame.nonzero_of_raisesBase {e c : Expr} (tame : I.Tame e) (raises : e.RaisesBase c) :
    I.value c ≠ 0 := by
  induction raises with
  | power =>
    cases tame with
    | power nonzero _ => exact nonzero
  | nested _ ih =>
    cases tame with
    | power _ base => exact ih base
  | factor stored =>
    cases tame with
    | product nonzero _ => exact nonzero _ _ stored
  | distributed stored _ ih =>
    cases tame with
    | product _ bases => exact ih (bases _ _ stored)

theorem TameBase.safeBase {b : Expr} (base : I.TameBase b) : I.SafeBase b :=
  ⟨base.nonzero, fun _ raises => base.tame.nonzero_of_raisesBase raises⟩

theorem safeFactors_of_tame {factors : List Factor} (every : EveryBase I.TameBase factors) :
    EveryBase I.SafeBase factors :=
  fun b e stored => (every b e stored).safeBase

theorem Tame.scale_sum {constant q : Rat} {terms : List Multiple} (nonzero : q ≠ 0)
    (tame : I.Tame (.sum constant terms)) : I.Tame ((Expr.sum constant terms).scale q) := by
  rw [Expr.scale_sum nonzero]
  cases tame with
  | sum each =>
    refine .sum fun t r member => ?_
    obtain ⟨⟨u, p⟩, stored, same⟩ := List.mem_map.mp member
    cases same
    exact each _ p stored

theorem inherited_tameBase [CharZero K] (pow_one : ∀ b, I.pow b 1 = b) : Inherited I.TameBase where
  inner _ base := base.factorPart
  multiple _ _ _ nonzero base :=
    ⟨value_scale_ne_zero pow_one nonzero base.nonzero, base.tame.scale_sum nonzero⟩

variable (I)

/-- The terms that the expression brings into a sum are tame, unless they are zero. -/
def TameTerms (e : Expr) : Prop :=
  ∀ t q, (t, q) ∈ e.termPart → I.value t ≠ 0 → I.Tame t

variable {I}

theorem tame_withCoefficient {factors : List Factor} (every : EveryBase I.TameBase factors)
    (q : Rat) : I.Tame (withCoefficient q factors) := by
  unfold withCoefficient
  split
  · exact .number 0
  · split
    · exact .number q
    · rename_i factor _
      split
      · unfold ofFactor
        split
        · exact every.head.tame
        · exact .power every.head.nonzero every.head.tame
      · exact .product (fun b e stored => (every b e stored).nonzero)
          fun b e stored => (every b e stored).tame
    · exact .product (fun b e stored => (every b e stored).nonzero)
        fun b e stored => (every b e stored).tame

theorem Tame.tameTerms {e : Expr} (tame : I.Tame e) : I.TameTerms e := by
  intro t q member nonzero
  have whole := tame
  cases tame with
  | number q => cases member
  | sum each => exact each t q member nonzero
  | product each bases =>
    cases List.mem_singleton.mp member
    exact tame_withCoefficient (fun b e stored => ⟨each b e stored, bases b e stored⟩) 1
  | _ =>
    cases List.mem_singleton.mp member
    exact whole

/-- If it is not zero itself, an expression with tame terms can be raised. -/
theorem TameTerms.tameBase (pow_one : ∀ b, I.pow b 1 = b) {e : Expr} (terms : I.TameTerms e)
    (canonical : e.Canonical) (nonzero : I.value e ≠ 0) : I.TameBase e := by
  refine ⟨nonzero, ?_⟩
  cases canonical.shape with
  | number q => exact .number q
  | sum form each => exact .sum terms
  | @multiple q factors coefficient kept =>
    rw [I.value_withCoefficient pow_one] at nonzero
    have alone : I.value (withCoefficient 1 factors) ≠ 0 := by
      rw [I.value_withCoefficient pow_one, Rat.cast_one, one_mul]
      exact right_ne_zero_of_mul nonzero
    have member : (withCoefficient 1 factors, q) ∈ (withCoefficient q factors).termPart := by
      rw [kept.termPart_withCoefficient coefficient]
      exact List.mem_singleton_self _
    have every := TameBase.factorPart ⟨alone, terms _ _ member alone⟩
    rw [kept.factorPart_withCoefficient one_ne_zero] at every
    exact tame_withCoefficient every q

theorem tameTerms_sumOf {summands : List Expr} (canonical : ∀ e ∈ summands, e.Canonical)
    (each : ∀ e ∈ summands, I.TameTerms e) : I.TameTerms (sumOf summands) := by
  intro t q member nonzero
  rw [termPart_sumOf canonical] at member
  obtain ⟨r, collected⟩ := mem_of_mem_collectTerms member
  obtain ⟨e, inside, part⟩ := List.mem_flatMap.mp collected
  exact each e inside t r part nonzero

/-- Factors that multiply to zero make a multiple of zero, of which nothing is asked. -/
theorem tameTerms_of_zero (pow_one : ∀ b, I.pow b 1 = b) {factors : List Factor} {q : Rat}
    (kept : KeptFactors factors) (nonzero : q ≠ 0) (zero : I.valueOfFactors factors = 0) :
    I.TameTerms (withCoefficient q factors) := by
  intro t r member distinct
  rw [kept.termPart_withCoefficient nonzero] at member
  cases List.mem_singleton.mp member
  rw [I.value_withCoefficient pow_one, zero, mul_zero] at distinct
  exact absurd rfl distinct

variable (I)

/-- One expression can take the place of another: it has the same value, and is as good for sums,
products and powers. -/
structure Replaces (e r : Expr) : Prop where
  canonical : r.Canonical
  value : I.value r = I.value e
  terms : I.TameTerms r

/-- A part whose value is not zero before or after. -/
structure ReplacesFactor (e r : Expr) : Prop extends I.Replaces e r where
  nonzero : I.value e ≠ 0

variable {I}

theorem ReplacesFactor.tameBase (pow_one : ∀ b, I.pow b 1 = b) {e r : Expr}
    (replaces : I.ReplacesFactor e r) : I.TameBase r :=
  replaces.terms.tameBase pow_one replaces.canonical (replaces.value ▸ replaces.nonzero)

theorem replaces_of_factorPart {e r : Expr} (canonical : r.Canonical)
    (value : I.value r = I.value e) (every : EveryBase I.TameBase r.factorPart) :
    I.Replaces e r :=
  ⟨canonical, value, (tame_of_factorPart every).tameTerms⟩

variable [CharZero K]

theorem replaces_sumOf (pow_one : ∀ b, I.pow b 1 = b) {e : Expr} {parts : List (Part Expr)}
    (each : ∀ part ∈ parts, I.Replaces part.before part.value)
    (whole : I.value e = (parts.map fun part => I.value part.before).sum) :
    I.Replaces e (sumOf (parts.map Part.value)) := by
  have canonical : ∀ r ∈ parts.map Part.value, r.Canonical :=
    List.forall_mem_map.mpr fun part inside => (each part inside).canonical
  refine ⟨canonical_sumOf canonical, ?_, tameTerms_sumOf canonical ?_⟩
  · rw [I.value_sumOf pow_one, whole, List.map_map]
    exact congrArg List.sum (List.map_congr_left fun part inside => (each part inside).value)
  · exact List.forall_mem_map.mpr fun part inside => (each part inside).terms

variable (laws : PowerLaws I.pow)

include laws

theorem replaces_productOf {e r : Expr} {parts : List (Part Expr)}
    (each : ∀ part ∈ parts, I.ReplacesFactor part.before part.value)
    (whole : I.value e = (parts.map fun part => I.value part.before).prod)
    (found : (productOf (parts.map Part.value) : Except Error Expr) = .ok r) : I.Replaces e r := by
  have canonical : ∀ r ∈ parts.map Part.value, r.Canonical :=
    List.forall_mem_map.mpr fun part inside => (each part inside).canonical
  have every : EveryBase I.TameBase ((parts.map Part.value).flatMap factorPart) := by
    intro b x member
    obtain ⟨operand, inside, part⟩ := List.mem_flatMap.mp member
    obtain ⟨changed, stored, rfl⟩ := List.mem_map.mp inside
    exact ((each changed stored).tameBase laws.exponent_one).factorPart b x part
  have run := productOf_eq_ok_iff.mp found
  refine replaces_of_factorPart (run.canonical canonical) ?_
    (run.everyBase (inherited_tameBase laws.exponent_one) canonical every)
  rw [run.value_eq laws canonical (safeFactors_of_tame every), whole, List.map_map]
  exact congrArg List.prod (List.map_congr_left fun part inside => (each part inside).value)

theorem replaces_powerOf {b b' x x' e r : Expr} (base : I.ReplacesFactor b b')
    (exponent : I.Replaces x x') (whole : I.value e = I.pow (I.value b) (I.value x))
    (found : (powerOf b' x' : Except Error Expr) = .ok r) : I.Replaces e r := by
  have tame := base.tameBase laws.exponent_one
  have run := powerOf_eq_ok_iff.mp found
  refine replaces_of_factorPart (run.canonical base.canonical exponent.canonical) ?_
    (run.everyBase (inherited_tameBase laws.exponent_one) base.canonical exponent.canonical tame)
  rw [run.value_eq laws base.canonical exponent.canonical tame.safeBase, base.value,
    exponent.value, whole]

end Interpretation

end SymbolicAlgebra
