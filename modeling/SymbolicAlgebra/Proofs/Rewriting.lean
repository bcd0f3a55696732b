import SymbolicAlgebra.Substitution
import SymbolicAlgebra.Proofs.Preservation

namespace SymbolicAlgebra

open SymbolicAlgebra.Expr

/-- What becomes of a number that is stored beside other parts, unless it is the neutral one, which
is no part. -/
def numberParts (map : Substitution Expr) (neutral q : Rat) : List (Part Expr) :=
  if q = neutral then [] else [⟨number q, map.find (number q)⟩]

def rewriteTerm (map : Substitution Expr) (multiple : Multiple) : Except Error (Part Expr) :=
  Part.mk (multiple.1.scale multiple.2) <$> rewrite map (multiple.1.scale multiple.2)

/-- What a factor becomes: it is looked up as a whole before its base and its exponent. -/
def rewriteFactor (map : Substitution Expr) (factor : Factor) : Except Error (Part Expr) :=
  match map.find (ofFactor factor) with
  | some replacement => .ok ⟨ofFactor factor, some replacement⟩
  | none => do
    let base ← rewrite map factor.1
    let exponent ← rewrite map factor.2
    Part.mk (ofFactor factor) <$> rebuildPair ⟨factor.1, base⟩ ⟨factor.2, exponent⟩ powerOf

section Equations

variable {map : Substitution Expr}

theorem rebuild_eq_some {V : Type} {parts : List (Part V)} {build : List V → Except Error V} {r : V}
    (found : rebuild parts build = .ok (some r)) : build (parts.map Part.value) = .ok r := by
  unfold rebuild at found
  split at found
  · obtain ⟨whole, built, same⟩ := map_eq_ok_iff.mp found
    cases same
    exact built
  · cases found

theorem rebuildPair_eq_some {V : Type} {first second : Part V} {build : V → V → Except Error V}
    {r : V} (found : rebuildPair first second build = .ok (some r)) :
    build first.value second.value = .ok r := by
  unfold rebuildPair at found
  split at found
  · obtain ⟨whole, built, same⟩ := map_eq_ok_iff.mp found
    cases same
    exact built
  · cases found

theorem rebuild_eq_none {V : Type} {parts : List (Part V)} {build : List V → Except Error V}
    (unchanged : ∀ part ∈ parts, part.after = none) : rebuild parts build = .ok none := by
  have none_changed : parts.any Part.isChanged = false := by
    refine List.any_eq_false.mpr fun part member => ?_
    rw [Part.isChanged, unchanged part member]
    exact Bool.false_ne_true
  rw [rebuild, none_changed]
  rfl

theorem of_mem_numberParts {neutral q : Rat} {part : Part Expr}
    (member : part ∈ numberParts map neutral q) :
    q ≠ neutral ∧ part = ⟨number q, map.find (number q)⟩ := by
  unfold numberParts at member
  split at member
  · cases member
  · exact ⟨‹_›, List.mem_singleton.mp member⟩

/-- A factor is replaced as a whole, or built again from what its base and exponent become. -/
theorem rewriteFactor_cases {b e : Expr} {part : Part Expr}
    (found : rewriteFactor map (b, e) = .ok part) :
    (∃ r, map.find (ofFactor (b, e)) = some r ∧ part = ⟨ofFactor (b, e), some r⟩) ∨
      ∃ base exponent after, (rewrite map b : Except Error (Option Expr)) = .ok base ∧
        (rewrite map e : Except Error (Option Expr)) = .ok exponent ∧
        (rebuildPair ⟨b, base⟩ ⟨e, exponent⟩ powerOf : Except Error (Option Expr)) = .ok after ∧
        part = ⟨ofFactor (b, e), after⟩ := by
  unfold rewriteFactor at found
  split at found
  · rename_i r listed
    cases found
    exact .inl ⟨r, listed, rfl⟩
  · obtain ⟨base, changed_base, found⟩ := bind_eq_ok_iff.mp found
    obtain ⟨exponent, changed_exponent, found⟩ := bind_eq_ok_iff.mp found
    obtain ⟨after, rebuilt, rfl⟩ := map_eq_ok_iff.mp found
    exact .inr ⟨base, exponent, after, changed_base, changed_exponent, rebuilt, rfl⟩

theorem before_rewriteFactor {factor : Factor} {part : Part Expr}
    (found : rewriteFactor map factor = .ok part) : part.before = ofFactor factor := by
  rcases rewriteFactor_cases found with ⟨r, _, rfl⟩ | ⟨base, exponent, after, _, _, _, rfl⟩ <;> rfl

theorem rewrite_of_find {e r : Expr} (listed : map.find e = some r) :
    (rewrite map e : Except Error (Option Expr)) = .ok (if e = r then none else some r) := by
  rw [rewrite.eq_def, listed]
  rfl

theorem rewrite_number {q : Rat} (unlisted : map.find (number q) = none) :
    (rewrite map (number q) : Except Error (Option Expr)) = .ok none := by
  rw [rewrite.eq_def, unlisted]
  rfl

theorem rewrite_number_of_find {q : Rat} (same : ∀ r, map.find (number q) = some r → r = number q) :
    (rewrite map (number q) : Except Error (Option Expr)) = .ok none := by
  cases listed : map.find (number q) with
  | none => exact rewrite_number listed
  | some r => rw [rewrite_of_find listed, same r listed, if_pos rfl]

theorem rewrite_symbol {name : String} (unlisted : map.find (symbol name) = none) :
    (rewrite map (symbol name) : Except Error (Option Expr)) = .ok none := by
  rw [rewrite.eq_def, unlisted]
  rfl

theorem rewrite_sum {constant : Rat} {terms : List Multiple}
    (unlisted : map.find (sum constant terms) = none) :
    (rewrite map (sum constant terms) : Except Error (Option Expr)) = (do
      let parts ← terms.mapM (rewriteTerm map)
      rebuild (parts ++ numberParts map 0 constant) summed) := by
  rw [rewrite.eq_def, unlisted]
  dsimp only
  rw [List.mapM_subtype (g := rewriteTerm map), List.unattach_attach]
  · rfl
  · intro multiple inside
    rfl

theorem rewrite_product {coefficient : Rat} {factors : List Factor}
    (unlisted : map.find (product coefficient factors) = none)
    (rest : coefficient ≠ 1 → map.find (withCoefficient 1 factors) = none) :
    (rewrite map (product coefficient factors) : Except Error (Option Expr)) = (do
      let parts ← factors.mapM (rewriteFactor map)
      rebuild (numberParts map 1 coefficient ++ parts) productOf) := by
  have none_found : (if coefficient = 1 then none else map.find (withCoefficient 1 factors)) =
      none := by
    split
    · rfl
    · rename_i other
      exact rest other
  rw [rewrite.eq_def, unlisted]
  dsimp only
  rw [none_found, List.mapM_subtype (g := rewriteFactor map), List.unattach_attach]
  · rfl
  · intro factor inside
    unfold rewriteFactor
    cases map.find (ofFactor factor) <;> rfl

/-- A product may be listed without its coefficient, which is looked up on its own then. -/
theorem rewrite_product_of_rest {coefficient : Rat} {factors : List Factor} {replacement : Expr}
    (unlisted : map.find (product coefficient factors) = none) (scaled : coefficient ≠ 1)
    (listed : map.find (withCoefficient 1 factors) = some replacement) :
    (rewrite map (product coefficient factors) : Except Error (Option Expr)) =
      some <$> productOf [(map.find (number coefficient)).getD (number coefficient),
        replacement] := by
  rw [rewrite.eq_def, unlisted]
  dsimp only
  rw [if_neg scaled, listed]
  rfl

theorem rewrite_power {b e : Expr} (unlisted : map.find (power b e) = none) :
    (rewrite map (power b e) : Except Error (Option Expr)) = (do
      let base ← rewrite map b
      let exponent ← rewrite map e
      rebuildPair ⟨b, base⟩ ⟨e, exponent⟩ powerOf) := by
  rw [rewrite.eq_def, unlisted]

theorem rewrite_sin {a : Expr} (unlisted : map.find (sin a) = none) :
    (rewrite map (sin a) : Except Error (Option Expr)) = Option.map sineOf <$> rewrite map a := by
  rw [rewrite.eq_def, unlisted]
  rfl

theorem rewrite_cos {a : Expr} (unlisted : map.find (cos a) = none) :
    (rewrite map (cos a) : Except Error (Option Expr)) = Option.map cosineOf <$> rewrite map a := by
  rw [rewrite.eq_def, unlisted]
  rfl

theorem rewrite_apply {name : String} {a : Expr} (unlisted : map.find (apply name a) = none) :
    (rewrite map (apply name a) : Except Error (Option Expr)) =
      Option.map (apply name) <$> rewrite map a := by
  rw [rewrite.eq_def, unlisted]
  rfl

theorem rewrite_argument_eq_some {f : Expr → Expr} {e a r : Expr}
    (rule : (rewrite map e : Except Error (Option Expr)) = Option.map f <$> rewrite map a)
    (found : (rewrite map e : Except Error (Option Expr)) = .ok (some r)) :
    ∃ a', (rewrite map a : Except Error (Option Expr)) = .ok (some a') ∧ f a' = r := by
  rw [rule] at found
  obtain ⟨after, changed, same⟩ := map_eq_ok_iff.mp found
  obtain ⟨a', rfl, built⟩ := Option.map_eq_some_iff.mp same
  exact ⟨a', changed, built⟩

theorem rewrite_derivative {a : Expr} {names : List String}
    (unlisted : map.find (derivative a names) = none) :
    (rewrite map (derivative a names) : Except Error (Option Expr)) = (do
      let renamed ← names.mapM (rename map)
      let target ← rewrite map a
      return if target.isNone ∧ renamed = names then none
        else some (derivative (target.getD a) renamed)) := by
  rw [rewrite.eq_def, unlisted]
  refine bind_congr fun renamed => bind_congr fun target => ?_
  split <;> rfl

/-- A scaled product is listed without its coefficient, or a product is rewritten part by part. -/
theorem Substitution.rest_cases (map : Substitution Expr) (coefficient : Rat) (rest : Expr) :
    (coefficient ≠ 1 ∧ ∃ r, map.find rest = some r) ∨
      (coefficient ≠ 1 → map.find rest = none) := by
  cases listed : map.find rest with
  | none => exact .inr fun _ => rfl
  | some r =>
    by_cases one : coefficient = 1
    · exact .inr fun scaled => absurd one scaled
    · exact .inl ⟨one, r, rfl⟩

end Equations

def Substitution.HasKey (map : Substitution Expr) (e : Expr) : Prop :=
  ∃ pair ∈ map, pair.1 = e

theorem Substitution.find_eq_none_iff {map : Substitution Expr} {e : Expr} :
    map.find e = none ↔ ¬ map.HasKey e := by
  rw [find, Option.map_eq_none_iff, List.find?_eq_none]
  simp only [decide_eq_true_eq, HasKey, not_exists, not_and]

theorem Substitution.mem_of_find {map : Substitution Expr} {e r : Expr}
    (listed : map.find e = some r) : (e, r) ∈ map := by
  obtain ⟨⟨key, value⟩, found, rfl⟩ := Option.map_eq_some_iff.mp listed
  have same : key = e := of_decide_eq_true (List.find?_some found :)
  rw [← same]
  exact List.mem_of_find?_eq_some found

/-- What is met in an expression by taking operands, and products without their coefficients. -/
inductive Expr.Reaches (e : Expr) : Expr → Prop where
  | refl : Reaches e e
  | operand {target part} (reach : Reaches e target) (member : part ∈ target.operands) :
      Reaches e part
  | coefficientFree {q factors} (reach : Reaches e (product q factors)) (coefficient : q ≠ 1) :
      Reaches e (withCoefficient 1 factors)

/-- What holds at the start and is handed on by every such step holds of all that is met. -/
theorem Expr.Reaches.closed {P : Expr → Prop} {e part : Expr} (reach : e.Reaches part)
    (start : P e) (operand : ∀ target, P target → ∀ part ∈ target.operands, P part)
    (free : ∀ q factors, P (product q factors) → P (withCoefficient 1 factors)) : P part := by
  induction reach with
  | refl => exact start
  | operand _ member ih => exact operand _ ih _ member
  | coefficientFree _ _ ih => exact free _ _ ih

/-- Nothing that is met in the expression is replaced, and no variable of differentiation. -/
structure Substitution.Misses (map : Substitution Expr) (e : Expr) : Prop where
  unlisted : ∀ part, e.Reaches part → ¬ map.HasKey part
  unrenamed : ∀ target names, e.Reaches (derivative target names) →
    ∀ name ∈ names, ¬ map.HasKey (symbol name)

theorem Substitution.Misses.find_eq_none {map : Substitution Expr} {e part : Expr}
    (misses : map.Misses e) (reach : e.Reaches part) : map.find part = none :=
  Substitution.find_eq_none_iff.mpr (misses.unlisted part reach)

section Unmatched

variable {map : Substitution Expr}

theorem rewriteTerm_eq_none {multiple : Multiple}
    (unchanged : (rewrite map (multiple.1.scale multiple.2) : Except Error (Option Expr)) =
      .ok none) : rewriteTerm map multiple = .ok ⟨multiple.1.scale multiple.2, none⟩ := by
  rw [rewriteTerm, unchanged]
  rfl

theorem rewriteFactor_eq_none {factor : Factor} (unlisted : map.find (ofFactor factor) = none)
    (base : (rewrite map factor.1 : Except Error (Option Expr)) = .ok none)
    (exponent : (rewrite map factor.2 : Except Error (Option Expr)) = .ok none) :
    rewriteFactor map factor = .ok ⟨ofFactor factor, none⟩ := by
  rw [rewriteFactor, unlisted, base, exponent]
  rfl

theorem rename_eq_self {name : String} (unlisted : ¬ map.HasKey (symbol name)) :
    (rename map name : Except Error String) = .ok name := by
  rw [rename, Substitution.find_eq_none_iff.mpr unlisted]
  rfl

variable {e : Expr} (misses : map.Misses e)
  (units : ∀ q factors b, e.Reaches (product q factors) → (b, number 1) ∈ factors →
    ∀ r, map.find (number 1) = some r → r = number 1)

include misses units

/-- Nothing that is met is changed. The exponent of a factor is looked up even if it is one, and so
no operand of anything. -/
theorem rewrite_eq_none : ∀ {part : Expr}, e.Reaches part →
    (rewrite map part : Except Error (Option Expr)) = .ok none
  | number q, reach => rewrite_number (misses.find_eq_none reach)
  | symbol name, reach => rewrite_symbol (misses.find_eq_none reach)
  | sum constant terms, reach => by
    have each : ∀ multiple ∈ terms, rewriteTerm map multiple =
        .ok ⟨multiple.1.scale multiple.2, none⟩ := by
      intro multiple stored
      have member : multiple.1.scale multiple.2 ∈ (sum constant terms).operands :=
        List.mem_append_left _ (List.mem_map.mpr ⟨multiple, stored, rfl⟩)
      exact rewriteTerm_eq_none (rewrite_eq_none (reach.operand member))
    rw [rewrite_sum (misses.find_eq_none reach), mapM_eq_ok_map each]
    refine rebuild_eq_none (List.forall_mem_append.mpr
      ⟨List.forall_mem_map.mpr fun _ _ => rfl, fun part member => ?_⟩)
    obtain ⟨nonzero, rfl⟩ := of_mem_numberParts member
    exact misses.find_eq_none (reach.operand (by simp [operands, nonzero]))
  | product coefficient factors, reach => by
    have rest (scaled : coefficient ≠ 1) := misses.find_eq_none (reach.coefficientFree scaled)
    have each : ∀ factor ∈ factors, rewriteFactor map factor = .ok ⟨ofFactor factor, none⟩ := by
      rintro ⟨b, x⟩ stored
      have whole : e.Reaches (ofFactor (b, x)) :=
        reach.operand (List.mem_append_right _ (List.mem_map.mpr ⟨(b, x), stored, rfl⟩))
      have smaller := size_factor_lt stored
      -- A factor without an exponent is its own base, and its exponent is not met.
      by_cases one : x = number 1
      · subst one
        have unit := rewrite_number_of_find (units coefficient factors b reach stored)
        have base : e.Reaches b := whole
        exact rewriteFactor_eq_none (misses.find_eq_none whole) (rewrite_eq_none base) unit
      · have power : ofFactor (b, x) = power b x := if_neg (mt isNumber_iff.mp one)
        have base : e.Reaches b := whole.operand (by simp [power, operands])
        have exponent : e.Reaches x := whole.operand (by simp [power, operands])
        exact rewriteFactor_eq_none (misses.find_eq_none whole) (rewrite_eq_none base)
          (rewrite_eq_none exponent)
    rw [rewrite_product (misses.find_eq_none reach) rest, mapM_eq_ok_map each]
    refine rebuild_eq_none (List.forall_mem_append.mpr
      ⟨fun part member => ?_, List.forall_mem_map.mpr fun _ _ => rfl⟩)
    obtain ⟨scaled, rfl⟩ := of_mem_numberParts member
    exact misses.find_eq_none (reach.operand (by simp [operands, scaled]))
  | power b x, reach => by
    have base := rewrite_eq_none (reach.operand (List.mem_cons_self ..))
    have exponent := rewrite_eq_none
      (reach.operand (List.mem_cons_of_mem _ (List.mem_singleton_self x)))
    rw [rewrite_power (misses.find_eq_none reach), base, exponent]
    rfl
  | sin a, reach => by
    rw [rewrite_sin (misses.find_eq_none reach),
      rewrite_eq_none (reach.operand (List.mem_singleton_self a))]
    rfl
  | cos a, reach => by
    rw [rewrite_cos (misses.find_eq_none reach),
      rewrite_eq_none (reach.operand (List.mem_singleton_self a))]
    rfl
  | apply name a, reach => by
    rw [rewrite_apply (misses.find_eq_none reach),
      rewrite_eq_none (reach.operand (List.mem_singleton_self a))]
    rfl
  | derivative a names, reach => by
    have renamed : (names.mapM (rename map) : Except Error (List String)) = .ok (names.map id) :=
      mapM_eq_ok_map fun name member => rename_eq_self (misses.unrenamed a names reach name member)
    rw [rewrite_derivative (misses.find_eq_none reach), renamed,
      rewrite_eq_none (reach.operand (List.mem_singleton_self a)), List.map_id]
    exact congrArg Except.ok (if_pos ⟨rfl, rfl⟩)
termination_by part => part.size
decreasing_by
  · exact size_operand_lt member
  all_goals
    simp only [size]
    omega

end Unmatched

/-- A substitution that matches nothing changes nothing: no expression that is met by taking
operands and products without their coefficients is listed, no variable of differentiation is, and
nothing else is given for one if a product that is met has a factor without an exponent. -/
theorem substitute_eq_self {map : Substitution Expr} {e : Expr} (misses : map.Misses e)
    (units : ∀ q factors b, e.Reaches (product q factors) → (b, number 1) ∈ factors →
      ∀ r, map.find (number 1) = some r → r = number 1) :
    (substitute map e : Except Error Expr) = .ok e := by
  unfold substitute
  split
  · rfl
  · rw [rewrite_eq_none misses units .refl]
    rfl

/-- The number three is not to be found in `2*x`. -/
theorem substitute_eq_self_three :
    (substitute [(number 3, symbol "y")] (product 2 [(symbol "x", number 1)]) :
      Except Error Expr) = .ok (product 2 [(symbol "x", number 1)]) := by
  have met {part : Expr} (reach : (product 2 [(symbol "x", number 1)]).Reaches part) :
      part ∈ [product 2 [(symbol "x", number 1)], number 2, symbol "x"] := by
    refine reach.closed (List.mem_cons_self ..) ?_ ?_
    · simp [operands, partsOf, ofFactor, isOne, isNumber]
    · simp [withCoefficient, ofFactor, isOne, isNumber]
  refine substitute_eq_self ⟨fun part reach listed => ?_, fun target names reach => ?_⟩
    fun q factors b reach _ r listed => ?_
  · obtain rfl : number 3 = part := by simpa [Substitution.HasKey] using listed
    simpa using met reach
  · simpa using met reach
  · simp [Substitution.find] at listed

/-- The exponent of a factor that has none is found as well: no operand of anything in `x*z` is the
number one, but with `y` for one it becomes `x**y*z**y`. -/
theorem substitute_unmatched_one :
    (product 1 [(symbol "x", number 1), (symbol "z", number 1)]).Canonical ∧
      Substitution.Misses [(number 1, symbol "y")]
        (product 1 [(symbol "x", number 1), (symbol "z", number 1)]) ∧
      (substitute [(number 1, symbol "y")]
        (product 1 [(symbol "x", number 1), (symbol "z", number 1)]) : Except Error Expr) =
        .ok (product 1 [(symbol "x", symbol "y"), (symbol "z", symbol "y")]) ∧
      (substitute [(number 1, symbol "y")]
        (product 1 [(symbol "x", number 1), (symbol "z", number 1)]) : Except Error Expr) ≠
        .ok (product 1 [(symbol "x", number 1), (symbol "z", number 1)]) := by
  have whole : (product 1 [(symbol "x", number 1), (symbol "z", number 1)]).Canonical :=
    @canonical_productOf [symbol "x", symbol "z"] _ (by cbv)
      (canonical_pair (.symbol "x") (.symbol "z"))
  have becomes : (substitute [(number 1, symbol "y")]
      (product 1 [(symbol "x", number 1), (symbol "z", number 1)]) : Except Error Expr) =
      .ok (product 1 [(symbol "x", symbol "y"), (symbol "z", symbol "y")]) := by cbv
  have met {part : Expr}
      (reach : (product 1 [(symbol "x", number 1), (symbol "z", number 1)]).Reaches part) :
      part ∈ [product 1 [(symbol "x", number 1), (symbol "z", number 1)], symbol "x",
        symbol "z"] := by
    refine reach.closed (List.mem_cons_self ..) ?_ ?_
    · simp [operands, partsOf, ofFactor, isOne, isNumber]
    · simp [withCoefficient]
  refine ⟨whole, ⟨fun part reach listed => ?_, fun target names reach => ?_⟩, becomes, ?_⟩
  · obtain rfl : number 1 = part := by simpa [Substitution.HasKey] using listed
    simpa using met reach
  · simpa using met reach
  · rw [becomes]
    simp

end SymbolicAlgebra
