import SymbolicAlgebra.Proofs.Grouping

namespace SymbolicAlgebra

open SymbolicAlgebra.Expr

theorem mergedFactors_number_cons (q : Rat) (operands : List Expr) :
    mergedFactors (number q :: operands) = mergedFactors operands :=
  rfl

theorem collectCoefficient_number_cons (q : Rat) (operands : List Expr) :
    collectCoefficient (number q :: operands) = q * collectCoefficient operands :=
  rfl

/-- A product that is built again keeps a number that was multiplied in. -/
theorem productOf_restart_number (q : Rat) (settled : Settled) (r : Rat) :
    (productOf (settled.rewritten ++ partsOf settled.kept ++ [number (q * r)]) :
        Except Error Expr) =
      productOf (number q :: (settled.rewritten ++ partsOf settled.kept ++ [number r])) := by
  refine productOf_congr ?_ ?_
  · simp only [collectCoefficient_number_cons, collectCoefficient_append]
    ring
  · simp only [mergedFactors, collectFactors, List.flatMap_cons, List.flatMap_append, factorPart,
      List.nil_append]

/-- With a number before the operands the product takes the same passes, and fails in the same one
for the same cause. The weights that bound the recursion of the product bound this one. -/
theorem productOf_number_cons {q : Rat} {operands : List Expr} (nonzero : q ≠ 0)
    (canonical : ∀ e ∈ operands, e.Canonical) :
    (productOf (number q :: operands) : Except Error Expr) = scale q <$> productOf operands := by
  rw [productOf_eq_settled (number q :: operands), productOf_eq_settled operands,
    mergedFactors_number_cons, collectCoefficient_number_cons]
  by_cases vanishes : collectCoefficient operands = 0
  · rw [if_pos (by rw [vanishes, mul_zero]), if_pos vanishes]
    exact congrArg Except.ok ((scale_number q 0).trans (by rw [mul_zero])).symm
  rw [if_neg (mul_ne_zero nonzero vanishes), if_neg vanishes]
  have merged := merged_mergedFactors canonical
  cases settling : (settledFactors (mergedFactors operands) : Except Error Settled) with
  | error cause => rfl
  | ok settled =>
    have form := (settledFactors_eq_ok_iff.mp settling).canonical merged.collected
    change (if _ then _ else _) = scale q <$> (if _ then _ else _ : Except Error Expr)
    rw [mul_assoc]
    by_cases zero : collectCoefficient operands * settled.coefficient = 0
    · rw [if_pos (by rw [zero, mul_zero]), if_pos zero]
      exact congrArg Except.ok ((scale_number q 0).trans (by rw [mul_zero])).symm
    have whole := mul_ne_zero nonzero zero
    rw [if_neg whole, if_neg zero]
    by_cases done : settled.rewritten = []
    · rw [if_pos done, if_pos done]
      exact congrArg Except.ok (scale_assembleProduct whole
        (merged.collected.sublist form.sublist) form.kept).symm
    · rw [if_neg done, if_neg done, productOf_restart_number]
      exact productOf_number_cons nonzero (form.again merged.collected)
termination_by totalWeight operands
decreasing_by
  have := totalWeight_partsOf_le settled.kept
  have := sizeOfBases_collectFactors_le operands
  rw [mergedFactors, settledFactors_nonzero] at settling
  have := (within_of_settledFactors settling).2 done
  simp only [Settled.weight] at this
  simp only [totalWeight_append, totalWeight_cons, totalWeight_nil, weight_number]
  omega

/-- Multiplying with a number is scaling: of an expression always, and of a product of any operands
whenever these multiply at all. If they do not, the number has no part in the refusal. -/
theorem productOf_scales (q : Rat) {e : Expr} {operands : List Expr} (canonical : e.Canonical)
    (canonical_operands : ∀ e ∈ operands, e.Canonical) :
    (productOf [number q, e] : Except Error Expr) = .ok (e.scale q) ∧
      (q ≠ 0 →
        (productOf (number q :: operands) : Except Error Expr) = scale q <$> productOf operands) :=
  ⟨productOf_number q canonical, fun nonzero => productOf_number_cons nonzero canonical_operands⟩

/-- The coefficient of `2*(x + 1)` comes to one under a half, and two roots of `2*x` are multiplied
out to a product whose coefficient does the same. -/
theorem productOf_scales_half :
    (productOf [number (1 / 2), sum 2 [(symbol "x", 2)]] : Except Error Expr) =
        .ok (sum 1 [(symbol "x", 1)]) ∧
      (productOf [number (1 / 2), power (product 2 [(symbol "x", number 1)]) (number (1 / 2)),
        power (product 2 [(symbol "x", number 1)]) (number (1 / 2))] : Except Error Expr) =
        .ok (symbol "x") := by
  have double : (sum 2 [(symbol "x", 2)]).Canonical :=
    (by cbv : sumOf [number 2, product 2 [(symbol "x", number 1)]] = sum 2 [(symbol "x", 2)]) ▸
      canonical_sumOf_pair (canonical_number 2) (@canonical_productOf [number 2, symbol "x"] _
        (by cbv) (canonical_pair (canonical_number 2) (.symbol "x")))
  have base : (product 2 [(symbol "x", number 1)]).Canonical :=
    @canonical_productOf [number 2, symbol "x"] _ (by cbv)
      (canonical_pair (canonical_number 2) (.symbol "x"))
  have root : (power (product 2 [(symbol "x", number 1)]) (number (1 / 2))).Canonical :=
    @canonical_powerOf _ (number (1 / 2)) _ (by cbv) base (canonical_number _)
  obtain ⟨halved, multiples⟩ := productOf_scales (1 / 2) double (canonical_pair root root)
  have scaled : (sum 2 [(symbol "x", 2)]).scale (1 / 2) = sum 1 [(symbol "x", 1)] := by cbv
  have bare : (product 2 [(symbol "x", number 1)]).scale (1 / 2) = symbol "x" := by cbv
  have roots : (productOf [power (product 2 [(symbol "x", number 1)]) (number (1 / 2)),
      power (product 2 [(symbol "x", number 1)]) (number (1 / 2))] : Except Error Expr) =
        .ok (product 2 [(symbol "x", number 1)]) := by cbv
  refine ⟨scaled ▸ halved, ?_⟩
  rw [multiples (by norm_num), roots]
  exact congrArg Except.ok bare

end SymbolicAlgebra
