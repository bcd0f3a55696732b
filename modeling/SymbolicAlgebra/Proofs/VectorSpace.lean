import Mathlib.Algebra.BigOperators.Ring.List
import SymbolicAlgebra.Proofs.Scaling

namespace SymbolicAlgebra

open SymbolicAlgebra.Expr

namespace Expr

theorem sumOf_perm {es others : List Expr} (canonical : ∀ e ∈ es, Canonical e)
    (perm : es.Perm others) : sumOf es = sumOf others := by
  have canonical_others : ∀ e ∈ others, Canonical e := fun e member =>
    canonical e (perm.mem_iff.mpr member)
  refine (canonical_sumOf canonical).ext (canonical_sumOf canonical_others) fun k => ?_
  rw [coordinate_sumOf canonical, coordinate_sumOf canonical_others]
  exact (perm.map _).sum_eq

/-- The sums of groups add up to the sum of all. -/
theorem sumOf_map_sumOf {groups : List (List Expr)}
    (canonical : ∀ group ∈ groups, ∀ e ∈ group, Canonical e) :
    sumOf (groups.map sumOf) = sumOf groups.flatten := by
  have canonical_sums : ∀ e ∈ groups.map sumOf, Canonical e := by
    intro e member
    obtain ⟨group, inside, rfl⟩ := List.mem_map.mp member
    exact canonical_sumOf (canonical group inside)
  have canonical_all : ∀ e ∈ groups.flatten, Canonical e := by
    intro e member
    obtain ⟨group, inside, operand⟩ := List.mem_flatten.mp member
    exact canonical group inside e operand
  refine (canonical_sumOf canonical_sums).ext (canonical_sumOf canonical_all) fun k => ?_
  rw [coordinate_sumOf canonical_sums, coordinate_sumOf canonical_all, List.map_map,
    List.map_flatten, List.sum_flatten, List.map_map]
  refine congrArg List.sum (List.map_congr_left fun group inside => ?_)
  exact coordinate_sumOf (canonical group inside) k

theorem sumOf_number_zero {a : Expr} (canonical : Canonical a) : sumOf [a, number 0] = a := by
  refine (canonical_sumOf_pair canonical (canonical_number 0)).ext canonical fun k => ?_
  rw [coordinate_sumOf_pair canonical (canonical_number 0), coordinate_number_zero, add_zero]

theorem sumOf_singleton {a : Expr} (canonical : Canonical a) : sumOf [a] = a := by
  have summand : ∀ e ∈ [a], Canonical e := by simp [canonical]
  refine (canonical_sumOf summand).ext canonical fun k => ?_
  rw [coordinate_sumOf summand, List.map_singleton, List.sum_singleton]

theorem sumOf_zeros {es : List Expr} (zeros : ∀ e ∈ es, e = number 0) : sumOf es = number 0 := by
  have canonical : ∀ e ∈ es, e.Canonical := fun e member => zeros e member ▸ canonical_number 0
  refine (canonical_sumOf canonical).ext (canonical_number 0) fun k => ?_
  rw [coordinate_sumOf canonical, coordinate_number_zero]
  refine List.sum_eq_zero fun q member => ?_
  obtain ⟨e, inside, rfl⟩ := List.mem_map.mp member
  rw [zeros e inside, coordinate_number_zero]

/-- A difference is zero for equal expressions alone. -/
theorem sumOf_negate_eq_zero_iff {a b : Expr} (left : Canonical a) (right : Canonical b) :
    sumOf [a, b.negate] = number 0 ↔ a = b := by
  have negated : Canonical b.negate := right.scale (-1)
  have difference (k : Option Expr) :
      coordinate k (sumOf [a, b.negate]) = coordinate k a - coordinate k b := by
    rw [coordinate_sumOf_pair left negated, negate, coordinate_scale right, neg_one_mul,
      sub_eq_add_neg]
  constructor
  · intro zero
    refine left.ext right fun k => ?_
    have vanishes := difference k
    rw [zero, coordinate_number_zero] at vanishes
    exact sub_eq_zero.mp vanishes.symm
  · rintro rfl
    refine (canonical_sumOf_pair left negated).ext (canonical_number 0) fun k => ?_
    rw [difference, coordinate_number_zero, sub_self]

theorem scale_sumOf (p : Rat) {es : List Expr} (canonical : ∀ e ∈ es, Canonical e) :
    (sumOf es).scale p = sumOf (es.map (scale p)) := by
  have scaled : ∀ e ∈ es.map (scale p), Canonical e := by
    intro e member
    obtain ⟨a, inside, rfl⟩ := List.mem_map.mp member
    exact (canonical a inside).scale p
  have whole := canonical_sumOf canonical
  refine (whole.scale p).ext (canonical_sumOf scaled) fun k => ?_
  have each : (es.map fun e => coordinate k (e.scale p)) = es.map fun e => p * coordinate k e :=
    List.map_congr_left fun e inside => coordinate_scale (canonical e inside) p k
  rw [coordinate_scale whole, coordinate_sumOf canonical, coordinate_sumOf scaled, List.map_map,
    ← List.sum_map_mul_left]
  exact congrArg List.sum each.symm

theorem scale_sumOf_pair (p : Rat) {a b : Expr} (left : Canonical a) (right : Canonical b) :
    (sumOf [a, b]).scale p = sumOf [a.scale p, b.scale p] :=
  scale_sumOf p (canonical_pair left right)

theorem sumOf_scale_scale (p q : Rat) {a : Expr} (canonical : Canonical a) :
    sumOf [a.scale p, a.scale q] = a.scale (p + q) := by
  have sum := canonical_sumOf_pair (canonical.scale p) (canonical.scale q)
  refine sum.ext (canonical.scale (p + q)) fun k => ?_
  rw [coordinate_sumOf_pair (canonical.scale p) (canonical.scale q), coordinate_scale canonical,
    coordinate_scale canonical, coordinate_scale canonical, add_mul]

theorem scale_scale (p q : Rat) {a : Expr} (canonical : Canonical a) :
    (a.scale q).scale p = a.scale (p * q) := by
  refine ((canonical.scale q).scale p).ext (canonical.scale (p * q)) fun k => ?_
  rw [coordinate_scale (canonical.scale q), coordinate_scale canonical,
    coordinate_scale canonical, mul_assoc]

theorem scale_eq_number_iff {e : Expr} (canonical : e.Canonical) {p : Rat} (nonzero : p ≠ 0)
    {q : Rat} : e.scale p = number q ↔ e = number (p⁻¹ * q) := by
  constructor
  · intro same
    have back := scale_scale p⁻¹ p canonical
    rw [same, scale_number, inv_mul_cancel₀ nonzero, scale_one] at back
    exact back.symm
  · rintro rfl
    rw [scale_number, mul_inv_cancel_left₀ nonzero]

end Expr

/-- Canonical expressions are a vector space over the rationals under `sumOf`, with multiplication
by a number as the scaling: sums do not depend on order or grouping, zero is neutral, only equal
expressions have the difference zero, and scaling distributes and composes. -/
theorem Expr.sumOf_vectorSpace {es others : List Expr} {groups : List (List Expr)} {a b : Expr}
    (p q : Rat) (canonical : ∀ e ∈ es, e.Canonical) (perm : es.Perm others)
    (grouped : groups.flatten.Perm es) (left : a.Canonical) (right : b.Canonical) :
    sumOf es = sumOf others ∧ sumOf (groups.map sumOf) = sumOf es ∧
    sumOf [a, number 0] = a ∧ sumOf [a, a.negate] = number 0 ∧
    ((differenceOf a b : Except Error Expr) = .ok (number 0) ↔ a = b) ∧
    (∃ pa pb r, (productOf [number p, a] : Except Error Expr) = .ok pa ∧
      (productOf [number p, b] : Except Error Expr) = .ok pb ∧
      (productOf [number p, sumOf [a, b]] : Except Error Expr) = .ok r ∧ r = sumOf [pa, pb]) ∧
    (∃ pa qa r, (productOf [number p, a] : Except Error Expr) = .ok pa ∧
      (productOf [number q, a] : Except Error Expr) = .ok qa ∧
      (productOf [number (p + q), a] : Except Error Expr) = .ok r ∧ sumOf [pa, qa] = r) ∧
    ∃ qa r, (productOf [number q, a] : Except Error Expr) = .ok qa ∧
      (productOf [number p, qa] : Except Error Expr) = .ok r ∧
      (productOf [number (p * q), a] : Except Error Expr) = .ok r := by
  have canonical_all : ∀ e ∈ groups.flatten, e.Canonical := fun e member =>
    canonical e (grouped.mem_iff.mp member)
  have canonical_groups : ∀ group ∈ groups, ∀ e ∈ group, e.Canonical := fun group inside e member =>
    canonical_all e (List.mem_flatten.mpr ⟨group, inside, member⟩)
  have sums := (sumOf_map_sumOf canonical_groups).trans (sumOf_perm canonical_all grouped)
  refine ⟨sumOf_perm canonical perm, sums, sumOf_number_zero left,
    (sumOf_negate_eq_zero_iff left left).mpr rfl, ?_, ?_, ?_, ?_⟩
  · rw [← sumOf_negate_eq_zero_iff left right]
    exact ⟨Except.ok.inj, congrArg Except.ok⟩
  · exact ⟨_, _, _, productOf_number p left, productOf_number p right,
      productOf_number p (canonical_sumOf_pair left right), scale_sumOf_pair p left right⟩
  · exact ⟨_, _, _, productOf_number p left, productOf_number q left,
      productOf_number (p + q) left, sumOf_scale_scale p q left⟩
  · have scaled := productOf_number p (left.scale q)
    rw [scale_scale p q left] at scaled
    exact ⟨_, _, productOf_number q left, scaled, productOf_number (p * q) left⟩

/-- The laws at `2*x + 1` and `3*x`. -/
theorem sumOf_vectorSpace_linear :
    sumOf [sum 1 [(symbol "x", 2)], product 3 [(symbol "x", number 1)]] =
        sumOf [product 3 [(symbol "x", number 1)], sum 1 [(symbol "x", 2)]] ∧
      ((differenceOf (sum 1 [(symbol "x", 2)]) (product 3 [(symbol "x", number 1)]) :
          Except Error Expr) = .ok (number 0) ↔
        sum 1 [(symbol "x", 2)] = product 3 [(symbol "x", number 1)]) := by
  have left : (sum 1 [(symbol "x", 2)]).Canonical := by
    refine .sum ⟨by simp, by simp, List.pairwise_singleton .., ?_, ?_⟩ ?_ <;> intro t q member <;>
      cases List.mem_singleton.mp member
    · trivial
    · decide
    · exact .symbol "x"
  have right : (product 3 [(symbol "x", number 1)]).Canonical := by
    have factor : CanonicalFactor (symbol "x") (number 1) :=
      canonicalFactor_iff.mpr (.inl ⟨rfl, by simp [raisesInside]⟩)
    have kept := KeptFactors.singleton factor (.symbol "x") (canonical_number 1) (by simp)
    exact canonical_product_iff.mpr ⟨by decide, by decide, kept⟩
  have canonical : ∀ e ∈ [sum 1 [(symbol "x", 2)], product 3 [(symbol "x", number 1)]],
      e.Canonical := by simp [left, right]
  have laws := @Expr.sumOf_vectorSpace _ _ [[_], [_]] _ _ 2 5 canonical (List.Perm.swap _ _ [])
    (List.Perm.refl _) left right
  exact ⟨laws.1, laws.2.2.2.2.1⟩

end SymbolicAlgebra
