import SymbolicAlgebra.Proofs.Closure
import SymbolicAlgebra.Proofs.Summands

namespace SymbolicAlgebra

open SymbolicAlgebra.Expr

/-- The result of an operation; zero if there is none. -/
def imageOf (f : Expr → Except Error Expr) (e : Expr) : Expr :=
  (f e).toOption.getD (number 0)

theorem imageOf_eq {f : Expr → Except Error Expr} {e r : Expr} (found : f e = .ok r) :
    imageOf f e = r := by
  rw [imageOf, found]
  rfl

theorem canonical_imageOf {f : Expr → Except Error Expr} {e : Expr}
    (preserves : ∀ r, f e = .ok r → r.Canonical) : (imageOf f e).Canonical := by
  cases found : f e with
  | error cause =>
    rw [imageOf, found]
    exact canonical_number 0
  | ok r =>
    rw [imageOf_eq found]
    exact preserves r found

/-- An operation that is applied to a sum by applying it to the operands. -/
structure Additive (f : Expr → Except Error Expr) : Prop where
  canonical : ∀ {e r}, f e = .ok r → e.Canonical → r.Canonical
  sum_iff : ∀ {constant terms r}, (sum constant terms).Canonical →
    (f (sum constant terms) = .ok r ↔ sumOf <$> (sum constant terms).operands.mapM f = .ok r)

namespace Additive

variable {f : Expr → Except Error Expr} (additive : Additive f)

include additive

theorem canonical_image {e : Expr} (canonical : e.Canonical) : (imageOf f e).Canonical :=
  canonical_imageOf fun _ found => additive.canonical found canonical

theorem eq_ok_iff {e r : Expr} (canonical : e.Canonical) : f e = .ok r ↔
    (∀ s ∈ summandsOf e, ∃ s', f s = .ok s') ∧ sumOf ((summandsOf e).map (imageOf f)) = r := by
  have each (es : List Expr) : sumOf <$> es.mapM f = .ok r ↔
      (∀ s ∈ es, ∃ s', f s = .ok s') ∧ sumOf (es.map (imageOf f)) = r := by
    simp only [map_eq_ok_iff, mapM_eq_ok_iff_map fun _ _ => imageOf_eq]
    constructor
    · rintro ⟨_, ⟨each, rfl⟩, whole⟩
      exact ⟨each, whole⟩
    · rintro ⟨each, whole⟩
      exact ⟨_, ⟨each, rfl⟩, whole⟩
  by_cases shape : ∃ c terms, e = sum c terms
  · obtain ⟨c, terms, rfl⟩ := shape
    rw [additive.sum_iff canonical, each]
    rfl
  · have lone := summandsOf_eq_singleton fun c terms same => shape ⟨c, terms, same⟩
    rw [lone, List.map_singleton, sumOf_singleton (additive.canonical_image canonical)]
    simp only [List.mem_singleton, forall_eq]
    constructor
    · intro found
      exact ⟨⟨r, found⟩, imageOf_eq found⟩
    · rintro ⟨⟨s, found⟩, same⟩
      rw [found, ← same, imageOf_eq found]

theorem imageOf_eq_sumOf {e r : Expr} (canonical : e.Canonical) (found : f e = .ok r) :
    r = sumOf ((summandsOf e).map (imageOf f)) :=
  ((additive.eq_ok_iff canonical).mp found).2.symm

theorem exists_iff {e : Expr} (canonical : e.Canonical) :
    (∃ r, f e = .ok r) ↔ ∀ s ∈ summandsOf e, ∃ r, f s = .ok r := by
  simp only [additive.eq_ok_iff canonical]
  exact ⟨fun ⟨_, each, _⟩ => each, fun each => ⟨_, each, rfl⟩⟩

theorem canonical_images {e : Expr} (canonical : e.Canonical) :
    ∀ r ∈ (summandsOf e).map (imageOf f), r.Canonical := by
  intro r member
  obtain ⟨s, inside, rfl⟩ := List.mem_map.mp member
  exact additive.canonical_image (canonical_summandsOf canonical s inside)

/-- Inside of a sum in which nothing merges, the operation does what it does outside. -/
theorem sumOf_apart {a b : Expr} (apart : a.Apart b) (left : a.Canonical) (right : b.Canonical)
    (left_nonzero : a ≠ number 0) (right_nonzero : b ≠ number 0) :
    ((∃ r, f (sumOf [a, b]) = .ok r) ↔ (∃ a', f a = .ok a') ∧ ∃ b', f b = .ok b') ∧
      ∀ a' b', f a = .ok a' → f b = .ok b' → f (sumOf [a, b]) = .ok (sumOf [a', b']) := by
  have whole := canonical_sumOf_pair left right
  have perm := apart.summandsOf_perm left right left_nonzero right_nonzero
  have exists_whole : (∃ r, f (sumOf [a, b]) = .ok r) ↔
      (∃ a', f a = .ok a') ∧ ∃ b', f b = .ok b' := by
    rw [additive.exists_iff whole, additive.exists_iff left, additive.exists_iff right]
    simp only [perm.mem_iff, List.mem_append, or_imp, forall_and]
  refine ⟨exists_whole, fun a' b' found_left found_right => ?_⟩
  obtain ⟨r, found⟩ := exists_whole.mpr ⟨⟨a', found_left⟩, b', found_right⟩
  have images : ∀ group ∈ [(summandsOf a).map (imageOf f), (summandsOf b).map (imageOf f)],
      ∀ e ∈ group, e.Canonical := by
    simp only [List.forall_mem_cons, List.not_mem_nil, false_imp_iff, implies_true, and_true]
    exact ⟨additive.canonical_images left, additive.canonical_images right⟩
  rw [found, additive.imageOf_eq_sumOf left found_left, additive.imageOf_eq_sumOf right found_right,
    additive.imageOf_eq_sumOf whole found]
  refine congrArg Except.ok ?_
  calc sumOf ((summandsOf (sumOf [a, b])).map (imageOf f))
    _ = sumOf ((summandsOf a ++ summandsOf b).map (imageOf f)) :=
        sumOf_perm (additive.canonical_images whole) (perm.map _)
    _ = sumOf [sumOf ((summandsOf a).map (imageOf f)), sumOf ((summandsOf b).map (imageOf f))] := by
        rw [List.map_append]
        have grouped := (sumOf_map_sumOf images).symm
        simpa using grouped

end Additive

theorem sumOf_append_zero {es : List Expr} (canonical : ∀ e ∈ es, e.Canonical) :
    sumOf (es ++ [number 0]) = sumOf es := by
  have all : ∀ e ∈ es ++ [number 0], e.Canonical := by
    intro e member
    rcases List.mem_append.mp member with member | member
    · exact canonical e member
    · cases List.mem_singleton.mp member
      exact canonical_number 0
  refine (canonical_sumOf all).ext (canonical_sumOf canonical) fun k => ?_
  rw [coordinate_sumOf all, coordinate_sumOf canonical, List.map_append, List.sum_append,
    List.map_singleton, List.sum_singleton, coordinate_number_zero, add_zero]

/-- An operation on the products of the same factors that hands on their coefficients. -/
def Homogeneous (f : Expr → Except Error Expr) : Prop :=
  ∀ {q p factors r}, KeptFactors factors → q ≠ 0 → p ≠ 0 →
    f (withCoefficient q factors) = .ok r → f (withCoefficient (p * q) factors) = .ok (r.scale p)

/-- An operation that respects sums and multiples. It makes multiples of the `unit` of numbers. -/
structure Linear (f : Expr → Except Error Expr) (unit : Expr) : Prop where
  canonical : ∀ {e r}, f e = .ok r → e.Canonical → r.Canonical
  number : ∀ q, f (number q) = .ok (unit.scale q)
  multiple : Homogeneous f
  sum_iff : ∀ {constant terms r}, (sum constant terms).Canonical →
    (f (sum constant terms) = .ok r ↔ (∀ t q, (t, q) ∈ terms → ∃ s, f t = .ok s) ∧
      sumOf ((terms.map fun multiple => (imageOf f multiple.1).scale multiple.2) ++
        [unit.scale constant]) = r)

namespace Linear

variable {f : Expr → Except Error Expr} {unit : Expr} (linear : Linear f unit)

include linear

theorem canonical_unit : unit.Canonical := by
  have found := linear.number 1
  rw [scale_one] at found
  exact linear.canonical found (canonical_number 1)

theorem canonical_image {e : Expr} (canonical : e.Canonical) : (imageOf f e).Canonical :=
  canonical_imageOf fun _ found => linear.canonical found canonical

theorem canonical_scaledImages {terms : List Multiple}
    (each : ∀ t q, (t, q) ∈ terms → t.Canonical) (c : Rat) :
    ∀ r ∈ (terms.map fun multiple => (imageOf f multiple.1).scale multiple.2) ++ [unit.scale c],
      r.Canonical := by
  intro r member
  rcases List.mem_append.mp member with member | member
  · obtain ⟨⟨t, q⟩, stored, rfl⟩ := List.mem_map.mp member
    exact (linear.canonical_image (each t q stored)).scale q
  · cases List.mem_singleton.mp member
    exact linear.canonical_unit.scale c

/-- A number may be multiplied in before or after. -/
theorem scale {e r : Expr} (canonical : e.Canonical) (found : f e = .ok r) (p : Rat) :
    f (e.scale p) = .ok (r.scale p) := by
  by_cases zero : p = 0
  · rw [zero, scale_zero, scale_zero, linear.number, scale_zero]
  cases canonical.shape with
  | number q =>
    rw [linear.number] at found
    cases found
    rw [scale_number, linear.number, scale_scale p q linear.canonical_unit]
  | @sum constant terms form each =>
    obtain ⟨terms_found, rfl⟩ := (linear.sum_iff canonical).mp found
    have scaled := canonical.scale p
    rw [scale_sum zero] at scaled ⊢
    rw [linear.sum_iff scaled, scale_sumOf p (linear.canonical_scaledImages each constant),
      List.map_append, List.map_map, List.map_map, List.map_singleton,
      scale_scale p constant linear.canonical_unit]
    refine ⟨fun t r member => ?_, ?_⟩
    · obtain ⟨⟨u, q⟩, stored, same⟩ := List.mem_map.mp member
      cases same
      exact terms_found _ q stored
    · refine congrArg (fun es => sumOf (es ++ _)) (List.map_congr_left fun multiple stored => ?_)
      exact (scale_scale p multiple.2 (linear.canonical_image (each _ _ stored))).symm
  | multiple nonzero kept =>
    rw [kept.scale_withCoefficient]
    exact linear.multiple kept nonzero zero found

/-- The coefficient may be left out before or after. -/
theorem coefficientFree {q : Rat} {factors : List Factor} {r : Expr} (kept : KeptFactors factors)
    (nonzero : q ≠ 0) (found : f (withCoefficient q factors) = .ok r) :
    f (withCoefficient 1 factors) = .ok (r.scale q⁻¹) := by
  have free := linear.scale (kept.canonical_withCoefficient q) found q⁻¹
  rwa [kept.scale_withCoefficient, inv_mul_cancel₀ nonzero] at free

/-- The result combines the images of the terms as the expression combines the terms. -/
theorem coordinate_eq {e r : Expr} (canonical : e.Canonical) (found : f e = .ok r)
    (k : Option Expr) : coordinate k r = e.constantPart * coordinate k unit +
      combination (fun t => coordinate k (imageOf f t)) e.termPart := by
  cases canonical.shape with
  | number q =>
    rw [linear.number] at found
    cases found
    rw [coordinate_scale linear.canonical_unit]
    exact (add_zero _).symm
  | @sum constant terms form each =>
    obtain ⟨_, rfl⟩ := (linear.sum_iff canonical).mp found
    rw [coordinate_sumOf (linear.canonical_scaledImages each constant), List.map_append,
      List.sum_append, List.map_map, List.map_singleton, List.sum_singleton,
      coordinate_scale linear.canonical_unit, add_comm]
    refine congrArg (_ + List.sum ·) (List.map_congr_left fun multiple stored => ?_)
    exact coordinate_scale (linear.canonical_image (each _ _ stored)) multiple.2 k
  | @multiple q factors nonzero kept =>
    have free := linear.coefficientFree kept nonzero found
    rw [kept.constantPart_withCoefficient, kept.termPart_withCoefficient nonzero, combination_cons,
      imageOf_eq free, coordinate_scale (linear.canonical found canonical), Rat.cast_id,
      ← mul_assoc, mul_inv_cancel₀ nonzero, one_mul, zero_mul, zero_add]
    exact (add_zero _).symm

/-- There is a result if there is one for every term. -/
theorem exists_iff {e : Expr} (canonical : e.Canonical) :
    (∃ r, f e = .ok r) ↔ ∀ t q, (t, q) ∈ e.termPart → ∃ s, f t = .ok s := by
  cases canonical.shape with
  | number q =>
    refine ⟨fun _ t q member => ?_, fun _ => ⟨_, linear.number q⟩⟩
    cases member
  | sum form each =>
    simp only [linear.sum_iff canonical]
    exact ⟨fun ⟨_, each, _⟩ => each, fun each => ⟨_, each, rfl⟩⟩
  | @multiple q factors nonzero kept =>
    rw [kept.termPart_withCoefficient nonzero]
    constructor
    · rintro ⟨r, found⟩ t p member
      cases List.mem_singleton.mp member
      exact ⟨_, linear.coefficientFree kept nonzero found⟩
    · intro each
      obtain ⟨r, found⟩ := each _ _ (List.mem_singleton_self _)
      have scaled := linear.scale (kept.canonical_withCoefficient 1) found q
      rw [kept.scale_withCoefficient, mul_one] at scaled
      exact ⟨_, scaled⟩

/-- The result for a sum is the sum of the results, whatever terms were merged or cancelled. -/
theorem sumOf {es rs : List Expr} (canonical : ∀ e ∈ es, e.Canonical)
    (found : es.mapM f = .ok rs) : f (Expr.sumOf es) = .ok (Expr.sumOf rs) := by
  obtain ⟨each, rfl⟩ := (mapM_eq_ok_iff_map fun _ _ => imageOf_eq).mp found
  have whole := canonical_sumOf canonical
  have terms_found : ∀ t q, (t, q) ∈ (Expr.sumOf es).termPart → ∃ s, f t = .ok s := by
    intro t q member
    obtain ⟨e, summand, r, part⟩ := exists_of_mem_termPart_sumOf canonical member
    exact (linear.exists_iff (canonical e summand)).mp (each e summand) t r part
  obtain ⟨r, result⟩ := (linear.exists_iff whole).mpr terms_found
  have images : ∀ s ∈ es.map (imageOf f), s.Canonical := by
    intro s member
    obtain ⟨e, summand, rfl⟩ := List.mem_map.mp member
    exact linear.canonical_image (canonical e summand)
  rw [result]
  -- Both sides combine the images of the terms, and a combination does not see which were merged.
  refine congrArg Except.ok ((linear.canonical result whole).ext (canonical_sumOf images) ?_)
  intro k
  rw [linear.coordinate_eq whole result, combination_sumOf _ _ canonical, coordinate_sumOf images,
    List.map_map]
  refine congrArg List.sum (List.map_congr_left fun e summand => ?_)
  obtain ⟨s, found⟩ := each e summand
  rw [← linear.coordinate_eq (canonical e summand) found, Function.comp_apply, imageOf_eq found]

end Linear

section OfAdditive

variable {f : Expr → Except Error Expr} {unit : Expr}

theorem Homogeneous.scale_term (homogeneous : Homogeneous f) {t r : Expr} (canonical : t.Canonical)
    (term : t.IsTerm) (found : f t = .ok r) {q : Rat} (nonzero : q ≠ 0) :
    f (t.scale q) = .ok (r.scale q) := by
  have kept := canonical.keptFactors term
  rw [← canonical.withCoefficient_factorPart term] at found ⊢
  rw [kept.scale_withCoefficient]
  exact homogeneous kept one_ne_zero nonzero found

theorem Homogeneous.term_of_scale (homogeneous : Homogeneous f) {t r : Expr}
    (canonical : t.Canonical) (term : t.IsTerm) {q : Rat} (nonzero : q ≠ 0)
    (found : f (t.scale q) = .ok r) : f t = .ok (r.scale q⁻¹) := by
  rw [scale_eq_withCoefficient canonical term] at found
  have free := homogeneous (canonical.keptFactors term) nonzero (inv_ne_zero nonzero) found
  rwa [inv_mul_cancel₀ nonzero, canonical.withCoefficient_factorPart term] at free

theorem Homogeneous.exists_scale_iff (homogeneous : Homogeneous f) {t : Expr}
    (canonical : t.Canonical) (term : t.IsTerm) {q : Rat} (nonzero : q ≠ 0) :
    (∃ r, f (t.scale q) = .ok r) ↔ ∃ s, f t = .ok s := by
  constructor
  · rintro ⟨r, found⟩
    exact ⟨_, homogeneous.term_of_scale canonical term nonzero found⟩
  · rintro ⟨s, found⟩
    exact ⟨_, homogeneous.scale_term canonical term found nonzero⟩

/-- An additive operation that hands on numbers and coefficients is linear. -/
theorem Additive.linear (additive : Additive f) (number : ∀ q, f (number q) = .ok (unit.scale q))
    (homogeneous : Homogeneous f) : Linear f unit where
  canonical := additive.canonical
  number := number
  multiple := homogeneous
  sum_iff {constant terms r} canonical := by
    have whole := canonical.valid_linearForm
    have each : (∀ s ∈ summandsOf (sum constant terms), ∃ s', f s = .ok s') ↔
        ∀ t q, (t, q) ∈ terms → ∃ s, f t = .ok s := by
      have scaled (t : Expr) (q : Rat) (stored : (t, q) ∈ terms) :=
        homogeneous.exists_scale_iff (whole.canonical t q stored) (whole.bare t q stored)
          (whole.reduced.multiplicity t q stored)
      have constants : ∀ s ∈ constantSummands constant, ∃ s', f s = .ok s' := fun s member =>
        ⟨_, eq_number_of_mem_constantSummands member ▸ number constant⟩
      rw [summandsOf, operands_sum, List.forall_mem_append, List.forall_mem_map]
      constructor
      · rintro ⟨found, _⟩ t q stored
        exact (scaled t q stored).mp (found (t, q) stored)
      · intro found
        refine ⟨?_, constants⟩
        rintro ⟨t, q⟩ stored
        exact (scaled t q stored).mpr (found t q stored)
    rw [additive.eq_ok_iff canonical, each]
    refine and_congr_right fun found => ?_
    have scaled : (terms.map fun multiple => multiple.1.scale multiple.2).map (imageOf f) =
        terms.map fun multiple => (imageOf f multiple.1).scale multiple.2 := by
      rw [List.map_map]
      refine List.map_congr_left fun multiple stored => ?_
      obtain ⟨s, result⟩ := found multiple.1 multiple.2 stored
      rw [imageOf_eq result]
      exact imageOf_eq (homogeneous.scale_term (whole.canonical _ _ stored)
        (whole.bare _ _ stored) result (whole.reduced.multiplicity _ _ stored))
    have canonical_scaled : ∀ s ∈ terms.map fun multiple =>
        (imageOf f multiple.1).scale multiple.2, s.Canonical := by
      intro s member
      obtain ⟨⟨t, q⟩, stored, rfl⟩ := List.mem_map.mp member
      exact (additive.canonical_image (whole.canonical t q stored)).scale q
    rw [summandsOf, operands_sum, List.map_append, scaled]
    by_cases zero : constant = 0
    · rw [zero, constantSummands_zero, scale_zero, sumOf_append_zero canonical_scaled,
        List.map_nil, List.append_nil]
    · rw [constantSummands, if_neg zero, List.map_singleton, imageOf_eq (number constant)]

end OfAdditive

end SymbolicAlgebra
