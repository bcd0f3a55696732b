import SymbolicAlgebra.Proofs.Exhaustion

namespace SymbolicAlgebra

open SymbolicAlgebra.Expr

/-- A class of exponents that do not add up to a positive integer. -/
structure NeverPositive (N : Expr → Prop) : Prop where
  add : ∀ {x y}, x.Canonical → y.Canonical → N x → N y → N (sumOf [x, y])
  not_positive : ∀ {n : Int}, N (number n) → ¬ 0 < n
  expand : ∀ {x x'}, N x → (expand x : Except Error Expr) = .ok x' → N x'

theorem neverPositive_false : NeverPositive fun _ => False where
  add _ _ none := none.elim
  not_positive none := none.elim
  expand none := none.elim

/-- Negative numbers as exponents. -/
def Expr.IsNegative (x : Expr) : Prop :=
  ∃ q : Rat, q < 0 ∧ x = number q

theorem neverPositive_isNegative : NeverPositive IsNegative where
  add := by
    rintro _ _ _ _ ⟨p, first, rfl⟩ ⟨q, second, rfl⟩
    exact ⟨p + q, add_neg first second, sumOf_numbers p q⟩
  not_positive := by
    rintro n ⟨q, negative, same⟩ positive
    rw [← number.inj same] at negative
    exact absurd (Int.cast_lt_zero.mp negative) (not_lt.mpr positive.le)
  expand := by
    rintro _ _ ⟨q, negative, rfl⟩ found
    rw [expand_eq_self (by simp) (by simp) (by simp)] at found
    cases found
    exact ⟨q, negative, rfl⟩

/-- Exponents of the class can be multiplied by positive integers. -/
theorem NeverPositive.scale {N : Expr → Prop} (never : NeverPositive N) {x : Expr}
    (canonical : x.Canonical) (within : N x) {n : Int} (positive : 0 < n) : N (x.scale n) := by
  obtain ⟨k, rfl⟩ := Int.eq_succ_of_zero_lt positive
  clear positive
  induction k with
  | zero => simpa [scale_one] using within
  | succ k ih =>
    have total := never.add (canonical.scale _) canonical ih within
    have whole : sumOf [x.scale ((k + 1 : Int) : Rat), x.scale 1] =
        x.scale (((k + 1 : Nat) + 1 : Int) : Rat) := by
      rw [sumOf_scale_scale _ _ canonical]
      push_cast
      rfl
    rw [scale_one] at whole
    exact whole ▸ total

/-- A sum has an exponent of the class, and any other base is raised through no sum. -/
def SumPower (N : Expr → Prop) (factor : Factor) : Prop :=
  factor.1.SumFree ∨ (∃ c terms, factor.1 = sum c terms) ∧ N factor.2

section Class

variable {N : Expr → Prop} (never : NeverPositive N)

include never

theorem raisingLaws_sumPower : RaisingLaws (SumPower N) where
  unit form := .inl (sumFree_of_isIndeterminate form)
  merge b e f left right first second := by
    rcases first with free | ⟨shape, first⟩
    · exact .inl free
    · rcases second with free | ⟨_, second⟩
      · exact .inl free
      · exact .inr ⟨shape, never.add left right first second⟩
  inside {b n} _ _ power c f member := by
    rcases power with free | ⟨⟨d, terms, rfl⟩, within⟩
    · exact .inl (free.factorPart c f member)
    · obtain ⟨rfl, rfl⟩ := Prod.mk.inj (List.mem_singleton.mp member)
      exact .inr ⟨⟨d, terms, rfl⟩, by rwa [scale_number, mul_one]⟩
  multiple {c terms q} _ power := by
    rcases power with free | ⟨_, within⟩
    · exact absurd rfl (free.not_sum c terms)
    · rw [← Int.cast_one] at within
      exact absurd one_pos (never.not_positive within)

theorem spent_of_sumPower {factor : Factor} (power : SumPower N factor) : Spent factor := by
  rintro c terms n base exponent
  rcases power with free | ⟨_, within⟩
  · exact absurd base (free.not_sum c terms)
  · exact never.not_positive (exponent ▸ within)

end Class

/-- Positive integers as exponents. -/
def Expr.IsPositive (x : Expr) : Prop :=
  ∃ n : Int, 0 < n ∧ x = number n

/-- What the powers in an expression have to be like to be multiplied out for good: the exponent is
a positive integer, or nothing that the base is raised through is a sum, or the exponent is of the
class and the base comes out as a sum, or has no sum in it under other than positive integers. -/
inductive Expr.Expandable (N : Expr → Prop) (b x : Expr) : Prop where
  | positive (exponent : x.IsPositive)
  | sumFree (free : b.SumFree)
  | stays {c terms} (exponent : N x) (base : (expand b : Except Error Expr) = .ok (sum c terms))
  | collapses (exponent : N x)
      (inner : ∀ c y, b.Raises c y → y.IsPositive ∨ c.SumFree)

section Expansion

variable {N : Expr → Prop} (never : NeverPositive N)

include never

theorem each_expand_power {b x : Expr} (base_canonical : b.Canonical)
    (exponent_canonical : x.Canonical) (expandable : b.Expandable N x)
    (base : ∀ b', (expand b : Except Error Expr) = .ok b' → b'.Each (SumPower N))
    (exponent : ∀ x', (expand x : Except Error Expr) = .ok x' → x'.Each (SumPower N))
    (collapse : N x → (∀ c y, b.Raises c y → y.IsPositive ∨ c.SumFree) →
      ∀ b', (expand b : Except Error Expr) = .ok b' → (∃ c terms, b' = sum c terms) ∨ b'.SumFree)
    {r : Expr} (found : (expand (power b x) : Except Error Expr) = .ok r) :
    r.Each (SumPower N) := by
  have laws := raisingLaws_sumPower never
  obtain ⟨b', x', expanded_base, expanded_exponent, outcome⟩ := expand_power_cases found
  have canonical_base := canonical_expand expanded_base base_canonical
  have canonical_exponent := canonical_expand expanded_exponent exponent_canonical
  have each_base := base b' expanded_base
  have each_exponent := exponent x' expanded_exponent
  -- Nothing but a sum is multiplied out, and only to a positive integer.
  have raised (power : SumPower N (b', x')) : r.Each (SumPower N) := by
    rcases outcome with ⟨c, terms, n, rfl, rfl, positive, _⟩ | ⟨_, found⟩
    · exact absurd positive (spent_of_sumPower never power c terms n rfl rfl)
    · exact laws.each_powerOf found canonical_base canonical_exponent
        ⟨power, each_base, each_exponent⟩
  cases expandable with
  | positive integer =>
    obtain ⟨n, positive, rfl⟩ := integer
    rw [expand_eq_self (by simp) (by simp) (by simp)] at expanded_exponent
    cases expanded_exponent
    rcases outcome with ⟨c, terms, m, rfl, _, _, found⟩ | ⟨other, found⟩
    · exact laws.each_expandPower found canonical_base each_base
    · refine laws.each_powerOf_inside found canonical_base fun c f member => ?_
      have not_sum : ∀ c terms, b' ≠ sum c terms := fun c terms same =>
        other c terms n same rfl positive
      have canonical_inner := (canonical_base.factorPart.2 c f member).2.2
      obtain ⟨power, each_inner, each_total⟩ := laws.factorPart each_base not_sum (c, f) member
      refine ⟨?_, each_inner, laws.each_scale canonical_inner each_total _⟩
      exact power.imp_right fun ⟨shape, within⟩ =>
        ⟨shape, never.scale canonical_inner within positive⟩
  | sumFree free => exact raised (.inl (sumFree_expand base_canonical free expanded_base))
  | stays within same =>
    cases same.symm.trans expanded_base
    exact raised (.inr ⟨⟨_, _, rfl⟩, never.expand within expanded_exponent⟩)
  | collapses within inner =>
    rcases collapse within inner b' expanded_base with shape | free
    · exact raised (.inr ⟨shape, never.expand within expanded_exponent⟩)
    · exact raised (.inl free)

/-- Expansion leaves sums with exponents of the class alone, if bases that come out as no sum come
out as nothing that is raised through one. -/
theorem each_expand_of_expandable
    (collapse : ∀ {b x}, N x → b.Canonical → (∀ c y, b.Raises c y → y.IsPositive ∨ c.SumFree) →
      ∀ b', (expand b : Except Error Expr) = .ok b' → (∃ c terms, b' = sum c terms) ∨ b'.SumFree)
    {e : Expr} (canonical : e.Canonical)
    (each : e.Each fun factor => factor.1.Expandable N factor.2) :
    ∀ r, (expand e : Except Error Expr) = .ok r → r.Each (SumPower N) := by
  have laws := raisingLaws_sumPower never
  induction e using Expr.induction with
  | number q =>
    intro r found
    rw [expand_eq_self (by simp) (by simp) (by simp)] at found
    cases found
    exact each_number q
  | sum constant terms ih =>
    intro r found
    have valid := canonical.valid_linearForm
    exact laws.each_expand_sum found canonical fun t q stored =>
      ih t q stored (valid.canonical t q stored) (each_sum.mp each t q stored)
  | product q factors ih =>
    intro r found
    obtain ⟨_, _, kept⟩ := canonical_product_iff.mp canonical
    refine laws.each_expand_product found kept fun part member u expansion => ?_
    obtain ⟨⟨b, x⟩, stored, rfl⟩ := List.mem_map.mp member
    obtain ⟨expandable, each_base, each_exponent⟩ := each_product.mp each _ stored
    have canonical_base := kept.bases_canonical b x stored
    have canonical_exponent := kept.exponents_canonical b x stored
    have base := (ih b x stored).1 canonical_base each_base
    have exponent := (ih b x stored).2 canonical_exponent each_exponent
    unfold ofFactor at expansion
    split at expansion
    · exact base u expansion
    · exact each_expand_power never canonical_base canonical_exponent expandable base exponent
        (fun within => collapse within canonical_base) expansion
  | power b x ih_base ih_exponent =>
    intro r found
    obtain ⟨expandable, each_base, each_exponent⟩ := each_power.mp each
    cases canonical with
    | power form canonical_base canonical_exponent =>
      exact each_expand_power never canonical_base canonical_exponent expandable
        (ih_base canonical_base each_base) (ih_exponent canonical_exponent each_exponent)
        (fun within => collapse within canonical_base) found
  | _ =>
    intro r found
    rw [expand_eq_self (by simp) (by simp) (by simp)] at found
    cases found
    exact each_of_isIndeterminate trivial

end Expansion

/-- With positive integers as the only exponents of sums, nothing is raised through a sum once
everything is multiplied out. -/
theorem sum_or_sumFree_expand {b b' : Expr} (canonical : b.Canonical)
    (inner : ∀ c y, b.Raises c y → y.IsPositive ∨ c.SumFree)
    (found : (expand b : Except Error Expr) = .ok b') :
    (∃ c terms, b' = sum c terms) ∨ b'.SumFree := by
  have each := each_expand_of_expandable neverPositive_false (fun none => none.elim) canonical
    (fun c y raises => (inner c y raises).elim .positive .sumFree) b' found
  by_cases shape : ∃ c terms, b' = sum c terms
  · exact .inl shape
  · refine .inr (sumFree_of_factorPart fun c f member => ?_)
    have laws := raisingLaws_sumPower neverPositive_false
    have not_sum : ∀ c terms, b' ≠ sum c terms := fun c terms same => shape ⟨c, terms, same⟩
    exact (laws.factorPart each not_sum (c, f) member).here.resolve_right fun none => none.2

/-- Expansion is exhaustive, and what it gives is its own expansion, if all powers are expandable:
no sum is left under a positive integer, neither as a power nor as a factor. -/
theorem exhausted_expand {N : Expr → Prop} (never : NeverPositive N) {e r : Expr}
    (canonical : e.Canonical) (expandable : ∀ b x, e.Raises b x → b.Expandable N x)
    (found : (expand e : Except Error Expr) = .ok r) :
    r.Exhausted ∧ (expand r : Except Error Expr) = .ok r := by
  have powers := each_expand_of_expandable never
    (fun _ canonical inner b' => sum_or_sumFree_expand canonical inner) canonical expandable r found
  have exhausted : r.Each Spent := fun b x raises => spent_of_sumPower never (powers b x raises)
  exact ⟨exhausted_iff_each.mpr exhausted,
    expand_of_exhausted (canonical_expand found canonical) exhausted⟩

/-- The sum of a symbol and one. -/
def successorOf (name : String) : Expr :=
  sum 1 [(symbol name, 1)]

theorem canonical_successorOf (name : String) : (successorOf name).Canonical :=
  canonical_successor name

/-- The expression `(x + 1)^2/(y + 1)`. -/
def squareOverSum : Expr :=
  product 1 [(successorOf "x", number 2), (successorOf "y", number (-1))]

theorem canonical_squareOverSum : squareOverSum.Canonical := by
  have square := canonical_powerOf (b := successorOf "x") (e := number 2) (by cbv)
    (canonical_successorOf "x") (canonical_number 2)
  have reciprocal := canonical_powerOf (b := successorOf "y") (e := number (-1)) (by cbv)
    (canonical_successorOf "y") (canonical_number (-1))
  exact @canonical_productOf [power _ _, power _ _] squareOverSum (by cbv)
    (canonical_pair square reciprocal)

/-- The terms of `(x + 1)^2` over `y + 1`. -/
def squareTermsOverSum : Expr :=
  sum 0 [(product 1 [(symbol "x", number 1), (successorOf "y", number (-1))], 2),
    (product 1 [(symbol "x", number 2), (successorOf "y", number (-1))], 1),
    (power (successorOf "y") (number (-1)), 1)]

/-- The square is multiplied out over the reciprocal, which is left alone. -/
theorem exhausted_expand_squareOverSum :
    (expand squareOverSum : Except Error Expr) = .ok squareTermsOverSum ∧
      squareTermsOverSum.Exhausted ∧
      (expand squareTermsOverSum : Except Error Expr) = .ok squareTermsOverSum := by
  have found : (expand squareOverSum : Except Error Expr) = .ok squareTermsOverSum := by cbv
  have base (name : String) :
      (successorOf name).Each fun factor => factor.1.Expandable IsNegative factor.2 :=
    each_sum.mpr fun t q stored => by
      cases List.mem_singleton.mp stored
      exact each_of_isIndeterminate trivial
  have square : Throughout (fun factor => factor.1.Expandable IsNegative factor.2)
      (successorOf "x", number 2) :=
    ⟨.positive ⟨2, by decide, by simp⟩, base "x", each_number 2⟩
  have reciprocal : Throughout (fun factor => factor.1.Expandable IsNegative factor.2)
      (successorOf "y", number (-1)) :=
    ⟨.stays ⟨-1, by decide, rfl⟩ (by cbv), base "y", each_number (-1)⟩
  have each := (each_product (q := 1)).mpr
    (List.forall_mem_cons.mpr ⟨square, List.forall_mem_singleton.mpr reciprocal⟩)
  exact ⟨found, exhausted_expand neverPositive_isNegative canonical_squareOverSum each found⟩

/-- The expression `sqrt(x + 1)*((x + 1)^(3/2) + y)`. -/
def rootProduct : Expr :=
  product 1 [(successorOf "x", number (1 / 2)),
    (sum 0 [(symbol "y", 1), (power (successorOf "x") (number (3 / 2)), 1)], number 1)]

/-- The expression `1/((y + z)/(x + 1) - y/(x + 1))`. -/
def collapsingReciprocal : Expr :=
  power (sum 0 [(product 1 [(symbol "y", number 1), (successorOf "x", number (-1))], -1),
    (product 1 [(successorOf "x", number (-1)),
      (sum 0 [(symbol "y", 1), (symbol "z", 1)], number 1)], 1)]) (number (-1))

theorem canonical_rootProduct : rootProduct.Canonical := by
  have root := canonical_powerOf (b := successorOf "x") (e := number (1 / 2)) (by cbv)
    (canonical_successorOf "x") (canonical_number _)
  have cube := canonical_powerOf (b := successorOf "x") (e := number (3 / 2))
    (r := power (successorOf "x") (number (3 / 2))) (by cbv)
    (canonical_successorOf "x") (canonical_number _)
  have operand := canonical_sum_pair (c := 0) (.symbol "y") cube trivial trivial (by cbv)
    one_ne_zero one_ne_zero
  exact @canonical_productOf [power _ _, sum _ _] _ (by cbv)
    (canonical_pair root operand)

theorem canonical_collapsingReciprocal : collapsingReciprocal.Canonical := by
  have reciprocal := canonical_powerOf (b := successorOf "x") (e := number (-1)) (by cbv)
    (canonical_successorOf "x") (canonical_number (-1))
  have left := @canonical_productOf [symbol "y", power _ _]
    (product 1 [(symbol "y", number 1), (successorOf "x", number (-1))]) (by cbv)
    (canonical_pair (.symbol "y") reciprocal)
  have total := canonical_sum_pair (c := 0) (.symbol "y") (.symbol "z") trivial trivial (by cbv)
    one_ne_zero one_ne_zero
  have right := @canonical_productOf [power _ _, sum _ _]
    (product 1 [(successorOf "x", number (-1)),
      (sum 0 [(symbol "y", 1), (symbol "z", 1)], number 1)]) (by cbv)
    (canonical_pair reciprocal total)
  exact canonical_powerOf (b := sum 0 _) (e := number (-1)) (by cbv)
    (canonical_sum_pair left right rfl rfl (by cbv) (by decide) one_ne_zero) (canonical_number _)

/-- Expansion leaves a positive power of a sum behind, which it multiplies out the next time. -/
def LeavesPower (e : Expr) : Prop :=
  ∃ r, (expand e : Except Error Expr) = .ok r ∧ ¬ r.Exhausted ∧
    (expand r : Except Error Expr) ≠ .ok r

theorem leavesPower_rootProduct : LeavesPower rootProduct := by
  refine ⟨sum 0 [(product 1 [(symbol "y", number 1), (successorOf "x", number (1 / 2))], 1),
    (power (successorOf "x") (number 2), 1)], by cbv, fun exhausted => ?_, fun again => ?_⟩
  · have square : (power (successorOf "x") (number 2)).Raises (successorOf "x") (number 2) :=
      .power
    exact exhausted 1 _ 2 (.within (List.mem_cons_of_mem _ (List.mem_singleton_self _)) square)
      (by decide)
  · have multiplied : (expand (sum 0
        [(product 1 [(symbol "y", number 1), (successorOf "x", number (1 / 2))], 1),
          (power (successorOf "x") (number 2), 1)]) : Except Error Expr) =
        .ok (sum 1 [(symbol "x", 2),
          (product 1 [(symbol "y", number 1), (successorOf "x", number (1 / 2))], 1),
          (power (symbol "x") (number 2), 1)]) := by cbv
    cases multiplied.symm.trans again

theorem leavesPower_collapsingReciprocal : LeavesPower collapsingReciprocal := by
  refine ⟨product 1 [(symbol "z", number (-1)), (successorOf "x", number 1)], by cbv,
    fun exhausted => ?_, fun again => ?_⟩
  · have lone : (product 1 [(symbol "z", number (-1)), (successorOf "x", number 1)]).Raises
        (successorOf "x") (number 1) :=
      .factor (List.mem_cons_of_mem _ (List.mem_singleton_self _))
    exact exhausted 1 _ 1 lone (by decide)
  · have multiplied : (expand (product 1 [(symbol "z", number (-1)),
        (successorOf "x", number 1)]) : Except Error Expr) =
        .ok (sum 0 [(product 1 [(symbol "x", number 1), (symbol "z", number (-1))], 1),
          (power (symbol "z") (number (-1)), 1)]) := by cbv
    cases multiplied.symm.trans again

/-- Roots of a sum that are multiplied together, and the reciprocal of a base that comes down to
one factor over a sum, are not multiplied out for good. -/
theorem expand_not_exhaustive :
    (rootProduct.Canonical ∧ LeavesPower rootProduct) ∧
      (collapsingReciprocal.Canonical ∧ LeavesPower collapsingReciprocal) :=
  ⟨⟨canonical_rootProduct, leavesPower_rootProduct⟩,
    ⟨canonical_collapsingReciprocal, leavesPower_collapsingReciprocal⟩⟩

end SymbolicAlgebra
