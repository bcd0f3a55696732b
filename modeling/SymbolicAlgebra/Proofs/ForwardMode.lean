import SymbolicAlgebra.Differentiation
import SymbolicAlgebra.Proofs.IntegerPowers

namespace SymbolicAlgebra

open SymbolicAlgebra.Expr

/-- A value together with its derivative. -/
structure Dual where
  value : Rat
  slope : Rat

namespace Dual

def scale (q : Rat) (a : Dual) : Dual :=
  ⟨q * a.value, q * a.slope⟩

def add (a b : Dual) : Dual :=
  ⟨a.value + b.value, a.slope + b.slope⟩

/-- The product rule. -/
def mul (a b : Dual) : Dual :=
  ⟨a.value * b.value, a.slope * b.value + a.value * b.slope⟩

/-- The rule for an integer power. -/
def pow (a : Dual) (n : Int) : Dual :=
  ⟨a.value ^ n, n * a.value ^ (n - 1) * a.slope⟩

theorem pow_one (a : Dual) : a.pow 1 = a := by
  simp [pow]

def prod (duals : List Dual) : Dual :=
  duals.foldr mul ⟨1, 0⟩

theorem prod_value (duals : List Dual) : (prod duals).value = (duals.map value).prod := by
  induction duals with
  | nil => rfl
  | cons a rest ih =>
    rw [List.map_cons, List.prod_cons, ← ih]
    rfl

/-- The product rule, with one summand for each factor that is differentiated. -/
theorem prod_slope (duals : List Dual) : (prod duals).slope =
    (duals.zipIdx.map fun a => ((duals.map value).eraseIdx a.2).prod * a.1.slope).sum := by
  induction duals with
  | nil => rfl
  | cons a rest ih =>
    have step : (prod (a :: rest)).slope =
        a.slope * (prod rest).value + a.value * (prod rest).slope := rfl
    rw [step, prod_value, ih, List.zipIdx_cons, List.zipIdx_succ]
    simp only [List.map_cons, List.map_map, List.sum_cons, ← List.sum_map_mul_left]
    congr 1
    · exact mul_comm _ _
    · refine congrArg _ (List.map_congr_left fun b _ => ?_)
      simp [mul_assoc]

end Dual

section Forward

variable (p : Point) (x : String)

mutual

/-- The value of an expression at a point and its derivative by `x`, computed side by side. Powers
are those with integer exponents. -/
def forward : Expr → Dual
  | number q => ⟨q, 0⟩
  | symbol name => ⟨p.symbol name, if name = x then 1 else 0⟩
  | sum constant terms => .add ⟨constant, 0⟩ (forwardTerms terms)
  | product coefficient factors => .scale coefficient (forwardFactors factors)
  | power b e => (forward b).pow (e.integer?.getD 0)
  | sin a =>
    let argument := forward a
    ⟨p.sine argument.value, p.cosine argument.value * argument.slope⟩
  | cos a =>
    let argument := forward a
    ⟨p.cosine argument.value, -p.sine argument.value * argument.slope⟩
  | apply _ _ => ⟨0, 0⟩
  | derivative _ _ => ⟨0, 0⟩

def forwardTerms : List Multiple → Dual
  | [] => ⟨0, 0⟩
  | (t, q) :: rest => .add (.scale q (forward t)) (forwardTerms rest)

def forwardFactors : List Factor → Dual
  | [] => ⟨1, 0⟩
  | (b, e) :: rest => .mul ((forward b).pow (e.integer?.getD 0)) (forwardFactors rest)

end

end Forward

theorem forwardTerms_value {p : Point} {x : String} {terms : List Multiple}
    (each : ∀ t q, (t, q) ∈ terms → (forward p x t).value = p.interpretation.value t) :
    (forwardTerms p x terms).value = p.interpretation.valueOfTerms terms := by
  induction terms with
  | nil =>
    rw [forwardTerms, Interpretation.valueOfTerms]
  | cons head rest ih =>
    obtain ⟨t, q⟩ := head
    have later := ih fun u r member => each u r (List.mem_cons_of_mem _ member)
    rw [forwardTerms, Interpretation.valueOfTerms, ← later, ← each t q (List.mem_cons_self ..)]
    rfl

theorem forwardFactors_value {p : Point} {x : String} {factors : List Factor}
    (each : ∀ b e, (b, e) ∈ factors → (forward p x b).value = p.interpretation.value b)
    (exponents : ∀ b e, (b, e) ∈ factors → ∃ n : Int, e = number n) :
    (forwardFactors p x factors).value = p.interpretation.valueOfFactors factors := by
  induction factors with
  | nil => rw [forwardFactors, Interpretation.valueOfFactors_nil]
  | cons head rest ih =>
    obtain ⟨b, e⟩ := head
    have later := ih (fun c f member => each c f (List.mem_cons_of_mem _ member))
      fun c f member => exponents c f (List.mem_cons_of_mem _ member)
    obtain ⟨n, rfl⟩ := exponents b e (List.mem_cons_self ..)
    rw [forwardFactors, Interpretation.valueOfFactors_cons, ← later, integer?_number,
      p.pow_number, ← each b _ (List.mem_cons_self ..)]
    rfl

/-- The first component is the value of the expression. -/
theorem forward_value {p : Point} (x : String) {e : Expr} (regular : Regular p e) :
    (forward p x e).value = p.value e := by
  change (forward p x e).value = p.interpretation.value e
  induction regular with
  | number q =>
    rw [forward, p.interpretation.value_number, Rat.cast_id]
  | symbol name =>
    rw [forward, Interpretation.value]
    rfl
  | sum terms ih =>
    rw [forward, Interpretation.value, ← forwardTerms_value ih]
    rfl
  | product bases exponents ih =>
    rw [forward, Interpretation.value_product, ← forwardFactors_value ih]
    · rfl
    · intro b e member
      obtain ⟨n, integer, _⟩ := exponents b e member
      exact ⟨n, integer⟩
  | power base defined ih =>
    rw [forward, Interpretation.value_power, p.pow_number, integer?_number, ← ih]
    rfl
  | sin argument ih =>
    rw [forward, Interpretation.value, ← ih]
    rfl
  | cos argument ih =>
    rw [forward, Interpretation.value, ← ih]
    rfl

theorem forward_ofFactor (p : Point) (x : String) (b : Expr) (n : Int) :
    forward p x (ofFactor (b, number n)) = (forward p x b).pow n := by
  by_cases one : n = 1
  · subst one
    exact (Dual.pow_one _).symm
  · rw [ofFactor, if_neg (integer_ne_one one), forward, integer?_number]
    rfl

theorem forwardFactors_eq_prod {p : Point} {x : String} {factors : List Factor}
    (exponents : ∀ b e, (b, e) ∈ factors → ∃ n : Int, e = number n) :
    forwardFactors p x factors = .prod ((partsOf factors).map (forward p x)) := by
  induction factors with
  | nil => rw [forwardFactors]; rfl
  | cons head rest ih =>
    obtain ⟨b, e⟩ := head
    have later := ih fun c f member => exponents c f (List.mem_cons_of_mem _ member)
    obtain ⟨n, rfl⟩ := exponents b e (List.mem_cons_self ..)
    have parts : partsOf ((b, number n) :: rest) = ofFactor (b, number n) :: partsOf rest := rfl
    rw [forwardFactors, later, parts, List.map_cons, forward_ofFactor, integer?_number]
    rfl

theorem forwardTerms_slope (p : Point) (x : String) (terms : List Multiple) :
    (forwardTerms p x terms).slope =
      (terms.map fun multiple => multiple.2 * (forward p x multiple.1).slope).sum := by
  induction terms with
  | nil => rw [forwardTerms]; rfl
  | cons head rest ih =>
    rw [forwardTerms, List.map_cons, List.sum_cons, ← ih]
    rfl

/-- The values that sum up are the ones that the results are known to have. -/
theorem sum_value_of_forall₂ {α : Type} {p : Point} {g : α → Rat} {as : List α}
    {summands : List Expr}
    (related : List.Forall₂ (fun a r => Smooth p r ∧ p.value r = g a) as summands) :
    Smooth p (sumOf summands) ∧ p.value (sumOf summands) = (as.map g).sum := by
  have both : (∀ r ∈ summands, Smooth p r) ∧ summands.map p.value = as.map g := by
    induction related with
    | nil => simp
    | cons here _ ih =>
      exact ⟨List.forall_mem_cons.mpr ⟨here.1, ih.1⟩, congrArg₂ List.cons here.2 ih.2⟩
  exact ⟨smooth_sumOf both.1, by rw [p.value_sumOf, both.2]⟩

/-- The derivative by `x` is found, is smooth again, and has the derivative as its value. -/
def Derives (p : Point) (x : String) (e : Expr) : Prop :=
  ∃ d, (derivativeBy x e : Except Error Expr) = .ok d ∧ Smooth p d ∧
    p.value d = (forward p x e).slope

section Rules

variable {p : Point} {x : String}

theorem derives_sum {constant : Rat} {terms : List Multiple}
    (each : ∀ t q, (t, q) ∈ terms → Derives p x t) : Derives p x (sum constant terms) := by
  have scaled (a : { t // t ∈ terms }) (_ : a ∈ terms.attach) :
      ∃ r, (do return (← derivativeBy x a.1.1).scale a.1.2 : Except Error Expr) = .ok r ∧
        Smooth p r ∧ p.value r = a.1.2 * (forward p x a.1.1).slope := by
    obtain ⟨⟨t, q⟩, inside⟩ := a
    obtain ⟨d, derived, smooth, value⟩ := each t q inside
    refine ⟨d.scale q, bind_eq_ok_iff.mpr ⟨d, derived, rfl⟩, smooth.scale q, ?_⟩
    rw [p.value_scale, value]
  obtain ⟨summands, slopes, related⟩ := exists_mapM scaled
  obtain ⟨whole, value⟩ := sum_value_of_forall₂ related
  have unattached : (terms.attach.map fun a => a.1.2 * (forward p x a.1.1).slope) =
      terms.map fun a => a.2 * (forward p x a.1).slope :=
    @List.attach_map_val _ _ terms fun a => a.2 * (forward p x a.1).slope
  refine ⟨sumOf summands, ?_, whole, ?_⟩
  · rw [derivativeBy, observe_bind]
    exact bind_eq_ok_iff.mpr ⟨summands, slopes, rfl⟩
  · rw [value, unattached, ← forwardTerms_slope, forward]
    exact (zero_add _).symm

/-- The summand of the product rule in which one of the parts is differentiated. -/
theorem exists_summand (q : Rat) {parts : List Expr} {part : Expr}
    (smooth : ∀ part ∈ parts, Smooth p part) (derives : Derives p x part) (i : Nat) :
    ∃ r, (do
      let slope ← derivativeBy x part
      if slope.isZero then return number 0
      else productOf (number q :: parts.eraseIdx i ++ [slope]) : Except Error Expr) = .ok r ∧
      Smooth p r ∧
      p.value r = q * (((parts.map p.value).eraseIdx i).prod * (forward p x part).slope) := by
  obtain ⟨d, derived, smooth_d, value⟩ := derives
  by_cases zero : d.isZero
  · refine ⟨number 0, bind_eq_ok_iff.mpr ⟨d, derived, if_pos zero⟩,
      ⟨canonical_number 0, .number 0⟩, ?_⟩
    rw [isNumber_iff.mp zero, p.value_number] at value
    rw [p.value_number, ← value, mul_zero, mul_zero]
  · have operands : ∀ e ∈ number q :: parts.eraseIdx i ++ [d], Smooth p e := by
      intro e member
      rcases List.mem_append.mp member with member | member
      · rcases List.mem_cons.mp member with rfl | member
        · exact ⟨canonical_number q, .number q⟩
        · exact smooth e (List.mem_of_mem_eraseIdx member)
      · cases List.mem_singleton.mp member
        exact smooth_d
    obtain ⟨r, found, smooth_r, value_r⟩ := exists_productOf_of_smooth operands
    refine ⟨r, bind_eq_ok_iff.mpr ⟨d, derived, (if_neg zero).trans found⟩, smooth_r, ?_⟩
    rw [value_r, List.map_append, List.map_cons, List.map_singleton, List.prod_append,
      List.prod_cons, List.prod_singleton, List.eraseIdx_map, p.value_number, value, mul_assoc]

theorem Smooth.part {coefficient : Rat} {factors : List Factor}
    (smooth : Smooth p (product coefficient factors)) {part : Expr}
    (member : part ∈ partsOf factors) : Smooth p part := by
  obtain ⟨_, _, kept⟩ := canonical_product_iff.mp smooth.canonical
  refine ⟨kept.canonical_partsOf part member, ?_⟩
  obtain ⟨⟨b, e⟩, inside, rfl⟩ := List.mem_map.mp member
  exact (smooth.factorPart b e inside).regularPower.ofFactor

theorem smooth_pair {a b : Expr} (left : Smooth p a) (right : Smooth p b) :
    ∀ e ∈ [a, b], Smooth p e := by
  simp [left, right]

theorem derives_product {coefficient : Rat} {factors : List Factor}
    (smooth : Smooth p (product coefficient factors))
    (each : ∀ part ∈ partsOf factors, Smooth p part ∧ Derives p x part) :
    Derives p x (product coefficient factors) := by
  have smooth_parts := fun part inside => (each part inside).1
  obtain ⟨summands, slopes, related⟩ := exists_mapM
    fun (a : { part // part ∈ partsOf factors } × Nat) (_ : a ∈ (partsOf factors).attach.zipIdx) =>
      exists_summand coefficient smooth_parts (each a.1.1 a.1.2).2 a.2
  obtain ⟨whole, value⟩ := sum_value_of_forall₂ related
  refine ⟨sumOf summands, ?_, whole, ?_⟩
  · rw [derivativeBy, observe_bind]
    exact bind_eq_ok_iff.mpr ⟨summands, slopes, rfl⟩
  · have exponents : ∀ b e, (b, e) ∈ factors → ∃ n : Int, e = number n := by
      intro b e member
      obtain ⟨_, _, n, integer, _⟩ := smooth.factorPart b e member
      exact ⟨n, integer⟩
    have duals : ((partsOf factors).map (forward p x)).zipIdx =
        (partsOf factors).attach.zipIdx.map fun a => (forward p x a.1.1, a.2) := by
      conv_lhs => rw [← List.attach_map_subtype_val (partsOf factors)]
      rw [List.map_map, List.zipIdx_map]
      rfl
    have values : ((partsOf factors).map (forward p x)).map Dual.value =
        (partsOf factors).map p.value := by
      rw [List.map_map]
      exact List.map_congr_left fun part inside => forward_value x (each part inside).1.regular
    rw [value, forward, forwardFactors_eq_prod exponents, Dual.scale, Dual.prod_slope, values, duals,
      List.map_map, List.sum_map_mul_left]
    rfl

theorem derives_power {b : Expr} {n : Int} (smooth : Smooth p (power b (number n)))
    (derives : Derives p x b) : Derives p x (power b (number n)) := by
  obtain ⟨canonical, regular⟩ := smooth
  obtain ⟨d, derived, smooth_d, value⟩ := derives
  cases canonical with
  | power form base_canonical exponent_canonical =>
  cases regular with
  | @power _ n base_regular defined =>
  have slope : (forward p x (power b (number n))).slope =
      n * (forward p x b).value ^ (n - 1) * (forward p x b).slope := by
    rw [forward, integer?_number]
    rfl
  have free := not_raisesInside_of_canonicalFactor (canonicalFactor_iff.mpr (.inr form))
  have independent : ¬ (number n).hasSymbol x = true := by simp [hasSymbol]
  rw [Derives, derivativeBy, observe_bind, if_neg independent, slope]
  by_cases zero : d.isZero
  · refine ⟨number 0, bind_eq_ok_iff.mpr ⟨d, derived, if_pos zero⟩,
      ⟨canonical_number 0, .number 0⟩, ?_⟩
    rw [isNumber_iff.mp zero, p.value_number] at value
    rw [p.value_number, ← value, mul_zero]
  · have lower : n - 1 < 0 → p.value b ≠ 0 := by
      intro negative
      have nonzero : n ≠ 0 := by
        rintro rfl
        exact form.exponent_ne_zero (by simp)
      exact defined (by omega)
    obtain ⟨reduced, raised, smooth_reduced, value_reduced⟩ :=
      exists_powerOf_of_smooth ⟨base_canonical, base_regular⟩ free lower
    have lowered : sumOf [number n, number (-1)] = number ((n - 1 : Int) : Rat) := by
      rw [sumOf_numbers, Int.cast_sub, Int.cast_one, sub_eq_add_neg]
    obtain ⟨r, found, smooth_r, value_r⟩ := exists_productOf_of_smooth (List.forall_mem_cons.mpr
      ⟨⟨canonical_number n, .number n⟩, smooth_pair smooth_reduced smooth_d⟩)
    refine ⟨r, bind_eq_ok_iff.mpr ⟨d, derived, (if_neg zero).trans ?_⟩, smooth_r, ?_⟩
    · refine bind_eq_ok_iff.mpr ⟨_, rfl, ?_⟩
      rw [lowered]
      exact bind_eq_ok_iff.mpr ⟨reduced, raised, found⟩
    · rw [value_r, forward_value x base_regular, List.map_cons, List.map_cons, List.map_singleton,
        List.prod_cons, List.prod_pair, p.value_number, value_reduced, value, mul_assoc]

theorem derives_sin {a : Expr} (nonzero : a ≠ number 0) (smooth : Smooth p a)
    (derives : Derives p x a) : Derives p x (sin a) := by
  obtain ⟨d, derived, smooth_d, value⟩ := derives
  have outer : cosineOf a = cos a := if_neg (mt isNumber_iff.mp nonzero)
  have smooth_outer : Smooth p (cos a) := ⟨.cos nonzero smooth.canonical, .cos smooth.regular⟩
  obtain ⟨r, found, smooth_r, value_r⟩ :=
    exists_productOf_of_smooth (smooth_pair smooth_outer smooth_d)
  refine ⟨r, ?_, smooth_r, ?_⟩
  · rw [derivativeBy, observe_bind, outer]
    exact bind_eq_ok_iff.mpr ⟨d, derived, found⟩
  · rw [value_r, List.map_cons, List.map_singleton, List.prod_pair, value,
      ← forward_value x smooth_outer.regular, forward, forward]

theorem derives_cos {a : Expr} (nonzero : a ≠ number 0) (smooth : Smooth p a)
    (derives : Derives p x a) : Derives p x (cos a) := by
  obtain ⟨d, derived, smooth_d, value⟩ := derives
  have outer : sineOf a = sin a := if_neg (mt isNumber_iff.mp nonzero)
  have smooth_outer : Smooth p (sin a) := ⟨.sin nonzero smooth.canonical, .sin smooth.regular⟩
  obtain ⟨r, found, smooth_r, value_r⟩ := exists_productOf_of_smooth (List.forall_mem_cons.mpr
    ⟨⟨canonical_number (-1), .number (-1)⟩, smooth_pair smooth_outer smooth_d⟩)
  refine ⟨r, ?_, smooth_r, ?_⟩
  · rw [derivativeBy, observe_bind, outer]
    exact bind_eq_ok_iff.mpr ⟨d, derived, found⟩
  · rw [value_r, List.map_cons, List.map_cons, List.map_singleton, List.prod_cons, List.prod_pair,
      value, p.value_number, ← forward_value x smooth_outer.regular, forward, forward, neg_one_mul,
      neg_mul]

/-- Every smooth expression has its derivative, by induction on the expression. -/
theorem Smooth.derives : ∀ {e : Expr}, Smooth p e → Derives p x e
  | number q, _ => by
    rw [Derives, derivativeBy, observe_bind, forward]
    exact ⟨number 0, rfl, ⟨canonical_number 0, .number 0⟩, p.value_number 0⟩
  | symbol name, _ => by
    rw [Derives, derivativeBy, observe_bind, forward]
    exact ⟨_, rfl, ⟨canonical_number _, .number _⟩, p.value_number _⟩
  | sum constant terms, ⟨.sum _ canonical, .sum regular⟩ =>
    derives_sum fun t q inside => Smooth.derives ⟨canonical t q inside, regular t q inside⟩
  | product coefficient factors, smooth => by
    refine derives_product smooth fun part inside => ?_
    have smooth_part := smooth.part inside
    exact ⟨smooth_part, smooth_part.derives⟩
  | power b _, smooth@⟨.power _ canonical _, .power regular _⟩ =>
    derives_power smooth (Smooth.derives ⟨canonical, regular⟩)
  | sin a, ⟨.sin nonzero canonical, .sin regular⟩ =>
    derives_sin nonzero ⟨canonical, regular⟩ (Smooth.derives ⟨canonical, regular⟩)
  | cos a, ⟨.cos nonzero canonical, .cos regular⟩ =>
    derives_cos nonzero ⟨canonical, regular⟩ (Smooth.derives ⟨canonical, regular⟩)
termination_by e => e.size
decreasing_by
  · have := size_term_lt inside
    simp only [size]
    omega
  · have := size_part_lt inside
    simp only [size]
    omega
  all_goals
    simp only [size]
    omega

end Rules

/-- Differentiation computes the derivative: at every point where an expression with integer
exponents is regular, the derivative is found and has the slope of forward mode as its value. It is
canonical and regular at the point as well, so that it can be differentiated again. -/
theorem differentiate_eq_forward (p : Point) (x : String) {e : Expr} (canonical : e.Canonical)
    (regular : Regular p e) :
    ∃ d, (differentiate e (symbol x) : Except Error Expr) = .ok d ∧ Smooth p d ∧
      p.value d = (forward p x e).slope := by
  obtain ⟨d, derived, smooth_d, value⟩ := @Smooth.derives p x e ⟨canonical, regular⟩
  exact ⟨d, bind_eq_ok_iff.mpr ⟨x, rfl, derived⟩, smooth_d, value⟩

/-- Every symbol is two, and sine and cosine are replaced by the start of their series. -/
def pointAtTwo : Point where
  symbol _ := 2
  sine a := a
  cosine _ := 1

/-- The derivative of `3*x**(-2)*sin(x)` at two. -/
theorem differentiate_eq_forward_at_two :
    ∃ d, (differentiate (product 3 [(symbol "x", number (-2)), (sin (symbol "x"), number 1)])
        (symbol "x") : Except Error Expr) = .ok d ∧
      Smooth pointAtTwo d ∧ pointAtTwo.value d = -3 / 4 := by
  have regular : Regular pointAtTwo
      (product 3 [(symbol "x", number (-2)), (sin (symbol "x"), number 1)]) := by
    refine regular_product fun b e member => ?_
    rcases List.mem_cons.mp member with same | member
    · cases same
      refine ⟨.symbol "x", -2, by simp, fun _ => ?_⟩
      rw [Point.value, Interpretation.value]
      exact two_ne_zero
    · cases List.mem_singleton.mp member
      exact regularPower_one (.sin (.symbol "x"))
  have inverse : (power (symbol "x") (number (-2))).Canonical :=
    @canonical_powerOf (symbol "x") (number (-2)) _ (by cbv) (.symbol "x") (canonical_number _)
  have canonical : (product 3 [(symbol "x", number (-2)), (sin (symbol "x"), number 1)]).Canonical :=
    @canonical_productOf [number 3, power (symbol "x") (number (-2)), sin (symbol "x")] _ (by cbv)
      (List.forall_mem_cons.mpr ⟨canonical_number 3,
        canonical_pair inverse (.sin (by simp) (.symbol "x"))⟩)
  have slope : (forward pointAtTwo "x"
      (product 3 [(symbol "x", number (-2)), (sin (symbol "x"), number 1)])).slope = -3 / 4 := by
    decide +kernel
  rw [← slope]
  exact differentiate_eq_forward pointAtTwo "x" canonical regular

end SymbolicAlgebra
