import SymbolicAlgebra.Proofs.Grouping
import SymbolicAlgebra.Proofs.LinearOperations

namespace SymbolicAlgebra

open SymbolicAlgebra.Expr

/-- The derivative; zero if there is none. -/
def slopeOf (x : String) (e : Expr) : Expr :=
  (derivativeBy x e : Except Error Expr).toOption.getD (number 0)

/-- The summand of the product rule in which one of the parts is differentiated. -/
def productSummand (x : String) (q : Rat) (parts : List Expr) (part : Expr × Nat) :
    Except Error Expr := do
  let slope ← derivativeBy x part.1
  if slope.isZero then return number 0
  else productOf (number q :: parts.eraseIdx part.2 ++ [slope])

section Rules

variable {x : String}

theorem slopeOf_eq {e d : Expr} (found : (derivativeBy x e : Except Error Expr) = .ok d) :
    slopeOf x e = d := by
  rw [slopeOf, found]
  rfl

theorem canonical_slopeOf {e : Expr} (canonical : e.Canonical) : (slopeOf x e).Canonical := by
  cases found : (derivativeBy x e : Except Error Expr) with
  | error cause =>
    rw [slopeOf, found]
    exact canonical_number 0
  | ok d =>
    rw [slopeOf_eq found]
    exact canonical_derivativeBy found canonical

theorem canonical_scaledSlopes {terms : List Multiple}
    (each : ∀ t q, (t, q) ∈ terms → t.Canonical) :
    ∀ r ∈ terms.map fun multiple => (slopeOf x multiple.1).scale multiple.2, r.Canonical := by
  intro r member
  obtain ⟨⟨t, q⟩, stored, rfl⟩ := List.mem_map.mp member
  exact (canonical_slopeOf (each t q stored)).scale q

/-- A sum is differentiated term by term. -/
theorem derivativeBy_sum (constant : Rat) (terms : List Multiple) :
    (derivativeBy x (sum constant terms) : Except Error Expr) =
      sumOf <$> terms.mapM fun multiple => scale multiple.2 <$> derivativeBy x multiple.1 := by
  rw [derivativeBy, observe_bind, List.mapM_subtype
    (g := fun multiple : Multiple => scale multiple.2 <$> derivativeBy x multiple.1),
    List.unattach_attach]
  · rfl
  · intro multiple inside
    rfl

theorem derivativeBy_sum_eq_ok_iff {constant : Rat} {terms : List Multiple} {d : Expr} :
    (derivativeBy x (sum constant terms) : Except Error Expr) = .ok d ↔
      (∀ t q, (t, q) ∈ terms → ∃ s, (derivativeBy x t : Except Error Expr) = .ok s) ∧
        sumOf (terms.map fun multiple => (slopeOf x multiple.1).scale multiple.2) = d := by
  have result (multiple : Multiple) (r : Expr)
      (found : scale multiple.2 <$> (derivativeBy x multiple.1 : Except Error Expr) = .ok r) :
      (slopeOf x multiple.1).scale multiple.2 = r := by
    obtain ⟨s, derived, rfl⟩ := map_eq_ok_iff.mp found
    rw [slopeOf_eq derived]
  rw [derivativeBy_sum, map_eq_ok_iff]
  simp only [mapM_eq_ok_iff_map result]
  constructor
  · rintro ⟨_, ⟨each, rfl⟩, rfl⟩
    refine ⟨fun t q member => ?_, rfl⟩
    obtain ⟨r, found⟩ := each (t, q) member
    obtain ⟨s, derived, _⟩ := map_eq_ok_iff.mp found
    exact ⟨s, derived⟩
  · rintro ⟨each, rfl⟩
    refine ⟨_, ⟨fun multiple member => ?_, rfl⟩, rfl⟩
    obtain ⟨s, derived⟩ := each multiple.1 multiple.2 member
    exact ⟨s.scale multiple.2, map_eq_ok_iff.mpr ⟨s, derived, rfl⟩⟩

theorem derivativeBy_product (q : Rat) (factors : List Factor) :
    (derivativeBy x (product q factors) : Except Error Expr) =
      sumOf <$> (partsOf factors).zipIdx.mapM (productSummand x q (partsOf factors)) := by
  have unattached : (partsOf factors).zipIdx =
      (partsOf factors).attach.zipIdx.map (Prod.map Subtype.val id) := by
    rw [← List.zipIdx_map, List.attach_map_subtype_val]
  rw [derivativeBy, observe_bind, unattached, List.mapM_map]
  rfl

theorem derivativeBy_number (q : Rat) :
    (derivativeBy x (number q) : Except Error Expr) = .ok (number 0) := by
  rw [derivativeBy]
  rfl

theorem canonical_summandOperands {q : Rat} {others : List Expr} {slope : Expr}
    (canonical : ∀ part ∈ others, part.Canonical) (canonical_slope : slope.Canonical) :
    ∀ e ∈ number q :: others ++ [slope], e.Canonical :=
  List.forall_mem_append.mpr ⟨List.forall_mem_cons.mpr ⟨canonical_number q, canonical⟩,
    List.forall_mem_singleton.mpr canonical_slope⟩

section Summand

variable {q : Rat} {parts : List Expr} {part : Expr × Nat} {r : Expr}
  (canonical : ∀ part ∈ parts, part.Canonical)

include canonical

theorem canonical_productSummand (member : part.1 ∈ parts)
    (found : productSummand x q parts part = .ok r) : r.Canonical := by
  obtain ⟨slope, derived, found⟩ := bind_eq_ok_iff.mp found
  have canonical_slope := canonical_derivativeBy derived (canonical part.1 member)
  split at found
  · cases found
    exact canonical_number 0
  · refine canonical_productOf found (canonical_summandOperands (fun e inside => ?_) canonical_slope)
    exact canonical e (List.mem_of_mem_eraseIdx inside)

theorem productSummand_scale (member : part.1 ∈ parts)
    (found : productSummand x q parts part = .ok r) (p : Rat) :
    productSummand x (p * q) parts part = .ok (r.scale p) := by
  obtain ⟨slope, derived, found⟩ := bind_eq_ok_iff.mp found
  have canonical_slope := canonical_derivativeBy derived (canonical part.1 member)
  refine bind_eq_ok_iff.mpr ⟨slope, derived, ?_⟩
  by_cases zero : slope.isZero
  · rw [if_pos zero] at found ⊢
    cases found
    rw [scale_number, mul_zero]
    rfl
  · rw [if_neg zero] at found ⊢
    refine (productOf_eq_ok_iff.mp found).scale ?_ (mul_assoc ..) rfl
    exact canonical_summandOperands
      (fun e inside => canonical e (List.mem_of_mem_eraseIdx inside)) canonical_slope

end Summand

/-- The product rule hands on a number that the coefficient is multiplied with. -/
theorem derivativeBy_product_scale {q : Rat} {factors : List Factor} {d : Expr}
    (kept : KeptFactors factors)
    (found : (derivativeBy x (product q factors) : Except Error Expr) = .ok d) (p : Rat) :
    (derivativeBy x (product (p * q) factors) : Except Error Expr) = .ok (d.scale p) := by
  rw [derivativeBy_product] at found ⊢
  obtain ⟨summands, slopes, rfl⟩ := map_eq_ok_iff.mp found
  have parts := kept.canonical_partsOf
  have inside {part : Expr × Nat} (member : part ∈ (partsOf factors).zipIdx) :
      part.1 ∈ partsOf factors := List.fst_mem_of_mem_zipIdx member
  have canonical : ∀ r ∈ summands, r.Canonical := by
    intro r member
    obtain ⟨part, stored, summand⟩ := exists_of_mem_mapM slopes member
    exact canonical_productSummand parts (inside stored) summand
  refine map_eq_ok_iff.mpr ⟨summands.map (scale p), ?_, (scale_sumOf p canonical).symm⟩
  refine mapM_map_eq_ok slopes fun part stored r summand => ?_
  exact productSummand_scale parts (inside stored) summand p

/-- The product rule changes nothing for a lone part. -/
theorem productSummand_lone {e : Expr} (canonical : e.Canonical) :
    productSummand x 1 [e] (e, 0) = derivativeBy x e := by
  cases derived : (derivativeBy x e : Except Error Expr) with
  | error cause =>
    rw [productSummand, derived]
    rfl
  | ok d =>
    refine bind_eq_ok_iff.mpr ⟨d, derived, ?_⟩
    split
    · rename_i zero
      rw [isNumber_iff.mp zero]
      rfl
    · have alone := productOf_number 1 (canonical_derivativeBy derived canonical)
      rwa [scale_one] at alone

theorem derivativeBy_withCoefficient {q : Rat} {factors : List Factor} (kept : KeptFactors factors)
    (nonzero : q ≠ 0) : (derivativeBy x (withCoefficient q factors) : Except Error Expr) =
      derivativeBy x (product q factors) := by
  rcases kept.withCoefficient_cases nonzero with ⟨b, e, rfl, rfl, whole⟩ | ⟨_, whole⟩
  · have canonical := kept.canonical_partsOf (ofFactor (b, e)) (List.mem_singleton_self _)
    have parts : partsOf [(b, e)] = [ofFactor (b, e)] := rfl
    rw [whole, derivativeBy_product, parts, List.zipIdx_singleton, List.mapM_cons, List.mapM_nil,
      productSummand_lone canonical]
    cases derived : (derivativeBy x (ofFactor (b, e)) : Except Error Expr) with
    | error cause => rfl
    | ok d =>
      have alone := sumOf_singleton (canonical_derivativeBy derived canonical)
      exact congrArg Except.ok alone.symm
  · rw [whole]

/-- Differentiation respects sums and multiples, and numbers have the derivative zero. -/
theorem linear_derivativeBy : Linear (derivativeBy x) (number 0) where
  canonical := canonical_derivativeBy
  number q := by rw [derivativeBy_number, scale_number, mul_zero]
  multiple {q p factors d} kept nonzero zero found := by
    -- A lone factor is no product, but the product rule would say the same of it.
    rw [derivativeBy_withCoefficient kept nonzero] at found
    rw [derivativeBy_withCoefficient kept (mul_ne_zero zero nonzero)]
    exact derivativeBy_product_scale kept found p
  sum_iff {constant terms d} canonical := by
    have each : ∀ t q, (t, q) ∈ terms → t.Canonical := canonical.valid_linearForm.canonical
    rw [derivativeBy_sum_eq_ok_iff, scale_number, mul_zero,
      ← sumOf_append_zero (canonical_scaledSlopes each)]
    rfl

theorem derivativeBy_scale {e d : Expr} (canonical : e.Canonical)
    (found : (derivativeBy x e : Except Error Expr) = .ok d) (p : Rat) :
    (derivativeBy x (e.scale p) : Except Error Expr) = .ok (d.scale p) :=
  linear_derivativeBy.scale canonical found p

/-- A sum has the sum of the derivatives, whatever terms were merged or cancelled in it. -/
theorem derivativeBy_sumOf {es ds : List Expr} (canonical : ∀ e ∈ es, e.Canonical)
    (found : (es.mapM (derivativeBy x) : Except Error (List Expr)) = .ok ds) :
    (derivativeBy x (sumOf es) : Except Error Expr) = .ok (sumOf ds) :=
  linear_derivativeBy.sumOf canonical found

end Rules

/-- Differentiation is linear: what has a derivative may be added and multiplied with a number
before or after. -/
theorem differentiate_linear {a b da db : Expr} (x : String) (q : Rat) (left : a.Canonical)
    (right : b.Canonical)
    (found_left : (differentiate a (symbol x) : Except Error Expr) = .ok da)
    (found_right : (differentiate b (symbol x) : Except Error Expr) = .ok db) :
    (differentiate (sumOf [a, b]) (symbol x) : Except Error Expr) = .ok (sumOf [da, db]) ∧
      ∃ qa qda, (productOf [number q, a] : Except Error Expr) = .ok qa ∧
        (productOf [number q, da] : Except Error Expr) = .ok qda ∧
        (differentiate qa (symbol x) : Except Error Expr) = .ok qda := by
  have derived_left : (derivativeBy x a : Except Error Expr) = .ok da := found_left
  have derived_right : (derivativeBy x b : Except Error Expr) = .ok db := found_right
  constructor
  · refine derivativeBy_sumOf (canonical_pair left right) (mapM_eq_ok_iff.mpr ?_)
    exact .cons derived_left (.cons derived_right .nil)
  · refine ⟨_, _, productOf_number q left,
      productOf_number q (canonical_derivativeBy derived_left left), ?_⟩
    exact derivativeBy_scale left derived_left q

/-- In the sum of `2*x*y + 1` and `sin(x) - 2*x*y` the products cancel; in the sum of the
derivatives `2*y` and `cos(x) - 2*y` the multiples of `y` do. -/
theorem differentiate_linear_cancelling :
    (differentiate (sum 1 [(sin (symbol "x"), 1)]) (symbol "x") : Except Error Expr) =
        .ok (cos (symbol "x")) ∧
      ∃ qa qda, (productOf [number (1 / 2),
          sum 1 [(product 1 [(symbol "x", number 1), (symbol "y", number 1)], 2)]] :
            Except Error Expr) = .ok qa ∧
        (productOf [number (1 / 2), product 2 [(symbol "y", number 1)]] : Except Error Expr) =
          .ok qda ∧
        (differentiate qa (symbol "x") : Except Error Expr) = .ok qda := by
  have symbols := canonical_pair (.symbol "x") (.symbol "y")
  have twice : (product 2 [(symbol "x", number 1), (symbol "y", number 1)]).Canonical :=
    @canonical_productOf [number 2, symbol "x", symbol "y"] _ (by cbv)
      (List.forall_mem_cons.mpr ⟨canonical_number 2, symbols⟩)
  have left : sumOf [number 1, product 2 [(symbol "x", number 1), (symbol "y", number 1)]] =
      sum 1 [(product 1 [(symbol "x", number 1), (symbol "y", number 1)], 2)] := by cbv
  have right : sumOf [(product 2 [(symbol "x", number 1), (symbol "y", number 1)]).scale (-1),
      sin (symbol "x")] =
      sum 0 [(product 1 [(symbol "x", number 1), (symbol "y", number 1)], -2),
        (sin (symbol "x"), 1)] := by cbv
  have sums : sumOf [sum 1 [(product 1 [(symbol "x", number 1), (symbol "y", number 1)], 2)],
      sum 0 [(product 1 [(symbol "x", number 1), (symbol "y", number 1)], -2),
        (sin (symbol "x"), 1)]] = sum 1 [(sin (symbol "x"), 1)] := by cbv
  have slopes : sumOf [product 2 [(symbol "y", number 1)],
      sum 0 [(symbol "y", -2), (cos (symbol "x"), 1)]] = cos (symbol "x") := by cbv
  rw [← sums, ← slopes]
  exact differentiate_linear "x" (1 / 2)
    (left ▸ canonical_sumOf_pair (canonical_number 1) twice)
    (right ▸ canonical_sumOf_pair (twice.scale (-1)) (.sin (by simp) (.symbol "x")))
    (by cbv) (by cbv)

theorem Expr.termsHaveSymbol_eq_false_iff {x : String} {terms : List Multiple} :
    termsHaveSymbol x terms = false ↔ ∀ t q, (t, q) ∈ terms → t.hasSymbol x = false := by
  induction terms with
  | nil => simp [termsHaveSymbol]
  | cons head rest ih =>
    obtain ⟨t, q⟩ := head
    rw [termsHaveSymbol, Bool.or_eq_false_iff, ih]
    constructor
    · rintro ⟨first, later⟩ u r member
      rcases List.mem_cons.mp member with same | member
      · cases same
        exact first
      · exact later u r member
    · intro each
      exact ⟨each t q (List.mem_cons_self ..), fun u r member =>
        each u r (List.mem_cons_of_mem _ member)⟩

theorem Expr.factorsHaveSymbol_eq_false_iff {x : String} {factors : List Factor} :
    factorsHaveSymbol x factors = false ↔
      ∀ b e, (b, e) ∈ factors → b.hasSymbol x = false ∧ e.hasSymbol x = false := by
  induction factors with
  | nil => simp [factorsHaveSymbol]
  | cons head rest ih =>
    obtain ⟨b, e⟩ := head
    rw [factorsHaveSymbol, Bool.or_eq_false_iff, Bool.or_eq_false_iff, ih]
    constructor
    · rintro ⟨first, later⟩ c f member
      rcases List.mem_cons.mp member with same | member
      · cases same
        exact first
      · exact later c f member
    · intro each
      exact ⟨each b e (List.mem_cons_self ..), fun c f member =>
        each c f (List.mem_cons_of_mem _ member)⟩

/-- A formal derivative stands where differentiation comes to it, that is not in an exponent. -/
inductive Expr.ExposesDerivative : Expr → Prop where
  | node {a names} : ExposesDerivative (derivative a names)
  | term {constant terms t q} (stored : (t, q) ∈ terms) (inner : t.ExposesDerivative) :
      ExposesDerivative (sum constant terms)
  | factor {q factors b e} (stored : (b, e) ∈ factors) (inner : b.ExposesDerivative) :
      ExposesDerivative (product q factors)
  | base {b e} (inner : b.ExposesDerivative) : ExposesDerivative (power b e)
  | sin {a} (inner : a.ExposesDerivative) : ExposesDerivative (sin a)
  | cos {a} (inner : a.ExposesDerivative) : ExposesDerivative (cos a)
  | apply {name a} (inner : a.ExposesDerivative) : ExposesDerivative (apply name a)

section Independence

variable {x : String}

/-- A power of something constant is constant, if the exponent is. -/
theorem derivativeBy_power_of_independent {b e : Expr} (exponent : e.hasSymbol x = false)
    (base : (derivativeBy x b : Except Error Expr) = .ok (number 0)) :
    (derivativeBy x (power b e) : Except Error Expr) = .ok (number 0) := by
  rw [derivativeBy, observe_bind, if_neg (by simp [exponent])]
  exact bind_eq_ok_iff.mpr ⟨number 0, base, rfl⟩

theorem derivativeBy_ofFactor_of_independent {b e : Expr} (exponent : e.hasSymbol x = false)
    (base : (derivativeBy x b : Except Error Expr) = .ok (number 0)) :
    (derivativeBy x (ofFactor (b, e)) : Except Error Expr) = .ok (number 0) := by
  unfold ofFactor
  split
  · exact base
  · exact derivativeBy_power_of_independent exponent base

/-- What a symbol does not occur in has the derivative zero, unless a formal derivative would have
to be differentiated again. -/
theorem derivativeBy_of_independent {e : Expr} (independent : e.hasSymbol x = false)
    (plain : ¬ e.ExposesDerivative) :
    (derivativeBy x e : Except Error Expr) = .ok (number 0) := by
  induction e using Expr.induction with
  | number q =>
    rw [derivativeBy]
    rfl
  | symbol name =>
    have other : name ≠ x := by simpa [hasSymbol] using independent
    rw [derivativeBy, observe_bind, if_neg other]
    rfl
  | sum constant terms ih =>
    rw [hasSymbol, termsHaveSymbol_eq_false_iff] at independent
    have each (t : Expr) (q : Rat) (stored : (t, q) ∈ terms) :
        (derivativeBy x t : Except Error Expr) = .ok (number 0) :=
      ih t q stored (independent t q stored) fun inner => plain (.term stored inner)
    refine derivativeBy_sum_eq_ok_iff.mpr ⟨fun t q stored => ⟨_, each t q stored⟩, ?_⟩
    refine sumOf_zeros fun r member => ?_
    obtain ⟨⟨t, q⟩, stored, rfl⟩ := List.mem_map.mp member
    rw [slopeOf_eq (each t q stored), scale_number, mul_zero]
  | product q factors ih =>
    rw [hasSymbol, factorsHaveSymbol_eq_false_iff] at independent
    have each (part : Expr × Nat) (stored : part ∈ (partsOf factors).zipIdx) :
        productSummand x q (partsOf factors) part = .ok (number 0) := by
      obtain ⟨⟨b, e⟩, inside, whole⟩ := List.mem_map.mp (List.fst_mem_of_mem_zipIdx stored)
      obtain ⟨base, exponent⟩ := independent b e inside
      have slope := (ih b e inside).1 base fun inner => plain (.factor inside inner)
      refine bind_eq_ok_iff.mpr ⟨number 0, ?_, rfl⟩
      rw [← whole]
      exact derivativeBy_ofFactor_of_independent exponent slope
    rw [derivativeBy_product, map_eq_ok_iff]
    exact ⟨_, mapM_eq_ok_map each, sumOf_zeros (by simp)⟩
  | power b e base _ =>
    rw [hasSymbol, Bool.or_eq_false_iff] at independent
    exact derivativeBy_power_of_independent independent.2
      (base independent.1 fun inner => plain (.base inner))
  | sin a ih =>
    rw [hasSymbol] at independent
    rw [derivativeBy, observe_bind]
    refine bind_eq_ok_iff.mpr ⟨_, ih independent fun inner => plain (.sin inner), ?_⟩
    exact productOf_of_mem_zero (by simp)
  | cos a ih =>
    rw [hasSymbol] at independent
    rw [derivativeBy, observe_bind]
    refine bind_eq_ok_iff.mpr ⟨_, ih independent fun inner => plain (.cos inner), ?_⟩
    exact productOf_of_mem_zero (by simp)
  | apply name a ih =>
    rw [hasSymbol] at independent
    rw [derivativeBy, observe_bind]
    exact bind_eq_ok_iff.mpr ⟨_, ih independent fun inner => plain (.apply inner), rfl⟩
  | derivative a names => exact absurd .node plain

end Independence

/-- A symbol that does not occur in an expression is one that it does not depend on: the derivative
is zero, as long as no formal derivative is exposed. -/
theorem differentiate_of_independent {e : Expr} (x : String) (independent : e.hasSymbol x = false)
    (plain : ¬ e.ExposesDerivative) :
    (differentiate e (symbol x) : Except Error Expr) = .ok (number 0) :=
  derivativeBy_of_independent independent plain

/-- A formal derivative may stand in an exponent, as in `2*y**D[y](f(y)) + 1`. -/
theorem differentiate_of_independent_exponent :
    (differentiate
      (sum 1 [(power (symbol "y") (derivative (apply "f" (symbol "y")) ["y"]), 2)]) (symbol "x") :
        Except Error Expr) = .ok (number 0) := by
  refine differentiate_of_independent "x" (by decide) ?_
  rintro (_ | ⟨stored, inner⟩)
  cases List.mem_singleton.mp stored
  cases inner with
  | base inner => cases inner

/-- Differentiated once more, a formal derivative is another one, also by a symbol that does not
occur in it. -/
theorem differentiate_derivative_independent :
    (derivative (apply "f" (symbol "y")) ["y"]).Canonical ∧
      (derivative (apply "f" (symbol "y")) ["y"]).hasSymbol "x" = false ∧
      (differentiate (derivative (apply "f" (symbol "y")) ["y"]) (symbol "x") :
        Except Error Expr) = .ok (derivative (apply "f" (symbol "y")) ["y", "x"]) ∧
      (differentiate (derivative (apply "f" (symbol "y")) ["y"]) (symbol "x") :
        Except Error Expr) ≠ .ok (number 0) := by
  refine ⟨.derivative (by simp) (.apply (.symbol "y")), by decide, by cbv, ?_⟩
  cbv
  simp

end SymbolicAlgebra
