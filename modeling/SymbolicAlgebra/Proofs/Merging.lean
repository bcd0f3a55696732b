import Mathlib.Tactic
import SymbolicAlgebra.Proofs.Preservation
import SymbolicAlgebra.Proofs.VectorSpace

namespace SymbolicAlgebra

open SymbolicAlgebra.Expr

/-- The exponents that a base carries among factors, in the order in which they stand. -/
def exponentsOf (b : Expr) (factors : List Factor) : List Expr :=
  (factors.filter (·.1 = b)).map Prod.snd

theorem mem_exponentsOf_iff {b e : Expr} {factors : List Factor} :
    e ∈ exponentsOf b factors ↔ (b, e) ∈ factors := by
  simp [exponentsOf]

theorem exponentsOf_append (b : Expr) (factors others : List Factor) :
    exponentsOf b (factors ++ others) = exponentsOf b factors ++ exponentsOf b others := by
  simp [exponentsOf]

theorem exponentsOf_perm (b : Expr) {factors others : List Factor} (perm : factors.Perm others) :
    (exponentsOf b factors).Perm (exponentsOf b others) :=
  (perm.filter _).map _

theorem exponentsOf_cons_self (b e : Expr) (factors : List Factor) :
    exponentsOf b ((b, e) :: factors) = e :: exponentsOf b factors := by
  simp [exponentsOf]

theorem exponentsOf_cons_of_ne {b c : Expr} (other : c ≠ b) (e : Expr) (factors : List Factor) :
    exponentsOf b ((c, e) :: factors) = exponentsOf b factors := by
  simp [exponentsOf, other]

theorem exponentsOf_eq_nil {b : Expr} {factors : List Factor} (absent : ∀ e, (b, e) ∉ factors) :
    exponentsOf b factors = [] := by
  refine List.eq_nil_iff_forall_not_mem.mpr fun e member => ?_
  exact absent e (mem_exponentsOf_iff.mp member)

/-- A coordinate of the total exponent that a base carries among factors. -/
def exponentCoordinate (k : Option Expr) (b : Expr) (factors : List Factor) : Rat :=
  ((exponentsOf b factors).map (coordinate k)).sum

section Coordinates

variable (k : Option Expr) (b : Expr)

theorem exponentCoordinate_append (factors others : List Factor) :
    exponentCoordinate k b (factors ++ others) =
      exponentCoordinate k b factors + exponentCoordinate k b others := by
  simp [exponentCoordinate, exponentsOf_append]

theorem exponentCoordinate_perm {factors others : List Factor} (perm : factors.Perm others) :
    exponentCoordinate k b factors = exponentCoordinate k b others :=
  ((exponentsOf_perm b perm).map _).sum_eq

theorem exponentCoordinate_cons (c e : Expr) (factors : List Factor) :
    exponentCoordinate k b ((c, e) :: factors) =
      (if c = b then coordinate k e else 0) + exponentCoordinate k b factors := by
  split
  · rename_i same
    subst same
    simp [exponentCoordinate, exponentsOf_cons_self]
  · rename_i other
    simp [exponentCoordinate, exponentsOf_cons_of_ne other]

theorem exponentCoordinate_eq_zero {b : Expr} {factors : List Factor}
    (absent : ∀ e, (b, e) ∉ factors) : exponentCoordinate k b factors = 0 := by
  rw [exponentCoordinate, exponentsOf_eq_nil absent]
  rfl

/-- Multiplying in a factor adds its exponent to that of its base. -/
theorem exponentCoordinate_insertFactor {c e : Expr} {factors : List Factor} (exponent : e.Canonical)
    (exponents : ∀ d f, (d, f) ∈ factors → f.Canonical) :
    exponentCoordinate k b (insertFactor (c, e) factors) =
      exponentCoordinate k b ((c, e) :: factors) := by
  induction factors with
  | nil => rfl
  | cons head rest ih =>
    obtain ⟨d, f⟩ := head
    have first := exponents d f (List.mem_cons_self ..)
    have tail := ih fun d' f' member => exponents d' f' (List.mem_cons_of_mem _ member)
    rw [insertFactor]
    split
    · rfl
    · rename_i same
      obtain rfl : c = d := compare_eq_iff.mp same
      simp only [exponentCoordinate_cons, coordinate_sumOf_pair exponent first]
      split <;> ring
    · simp only [exponentCoordinate_cons, tail]
      ring

theorem exponentCoordinate_foldr {factors : List Factor}
    (canonical : ∀ c e, (c, e) ∈ factors → c.Canonical ∧ e.Canonical) :
    exponentCoordinate k b (factors.foldr insertFactor []) = exponentCoordinate k b factors := by
  induction factors with
  | nil => rfl
  | cons head rest ih =>
    obtain ⟨c, e⟩ := head
    have here := canonical c e (List.mem_cons_self ..)
    have later := fun d f member => canonical d f (List.mem_cons_of_mem _ member)
    have collected := collected_foldr later
    rw [List.foldr_cons, exponentCoordinate_insertFactor k b here.2 collected.exponents_canonical,
      exponentCoordinate_cons, ih later, exponentCoordinate_cons]

theorem exponentCoordinate_collectFactors {operands : List Expr}
    (canonical : ∀ e ∈ operands, e.Canonical) :
    exponentCoordinate k b (collectFactors operands) =
      exponentCoordinate k b (operands.flatMap factorPart) :=
  exponentCoordinate_foldr k b (canonical_factorParts canonical)

theorem exponentCoordinate_nonzero (factors : List Factor) :
    exponentCoordinate k b (factors.filter fun factor => !factor.2.isZero) =
      exponentCoordinate k b factors := by
  induction factors with
  | nil => rfl
  | cons head rest ih =>
    obtain ⟨c, e⟩ := head
    by_cases zero : e.isZero
    · obtain rfl := isNumber_iff.mp zero
      rw [List.filter_cons_of_neg (by simpa using zero), ih, exponentCoordinate_cons,
        coordinate_number_zero, ite_self, zero_add]
    · rw [List.filter_cons_of_pos (by simpa using zero), exponentCoordinate_cons, ih,
        exponentCoordinate_cons]

theorem Increasing.exponentsOf_eq {b e : Expr} {factors : List Factor}
    (increasing : Increasing factors) (member : (b, e) ∈ factors) : exponentsOf b factors = [e] := by
  induction factors with
  | nil => cases member
  | cons head rest ih =>
    obtain ⟨c, f⟩ := head
    obtain ⟨least, increasing_rest⟩ := List.pairwise_cons.mp increasing
    rcases List.mem_cons.mp member with same | later
    · cases same
      rw [exponentsOf_cons_self, exponentsOf_eq_nil]
      intro f inside
      exact compare_self_ne_lt b (least _ inside)
    · have other : c ≠ b := by
        rintro rfl
        exact compare_self_ne_lt c (least _ later)
      rw [exponentsOf_cons_of_ne other]
      exact ih increasing_rest later

theorem Increasing.exponentCoordinate_eq {b e : Expr} {factors : List Factor}
    (increasing : Increasing factors) (member : (b, e) ∈ factors) :
    exponentCoordinate k b factors = coordinate k e := by
  rw [exponentCoordinate, increasing.exponentsOf_eq member]
  simp

end Coordinates

/-- Collected factors of which none has the exponent zero. -/
structure Merged (factors : List Factor) : Prop where
  collected : Collected factors
  nonzero : ∀ b e, (b, e) ∈ factors → e ≠ number 0

theorem Expr.Canonical.merged_factorPart {e : Expr} (canonical : e.Canonical) :
    Merged e.factorPart where
  collected := ⟨canonical.factorPart.1, fun b x stored => (canonical.factorPart.2 b x stored).2.1,
    fun b x stored => (canonical.factorPart.2 b x stored).2.2⟩
  nonzero b x stored := (canonical.factorPart.2 b x stored).1.exponent

theorem Merged.mem_iff {factors : List Factor} (merged : Merged factors) {b e : Expr} :
    (b, e) ∈ factors ↔ e.Canonical ∧ e ≠ number 0 ∧
      ∀ k, exponentCoordinate k b factors = coordinate k e := by
  constructor
  · intro member
    refine ⟨merged.collected.exponents_canonical b e member, merged.nonzero b e member, fun k => ?_⟩
    exact merged.collected.increasing.exponentCoordinate_eq k member
  · rintro ⟨canonical, nonzero, equal⟩
    by_cases present : ∃ f, (b, f) ∈ factors
    · obtain ⟨f, member⟩ := present
      have same : e = f := by
        refine canonical.ext (merged.collected.exponents_canonical b f member) fun k => ?_
        rw [← equal k, merged.collected.increasing.exponentCoordinate_eq k member]
      rwa [same]
    · have zero : e = number 0 := by
        refine canonical.ext (canonical_number 0) fun k => ?_
        rw [← equal k, coordinate_number_zero, exponentCoordinate_eq_zero]
        exact fun f member => present ⟨f, member⟩
      exact absurd zero nonzero

/-- Merged factors are determined by the exponents of the bases. -/
theorem Merged.ext {factors others : List Factor} (merged : Merged factors)
    (merged_others : Merged others)
    (equal : ∀ k b, exponentCoordinate k b factors = exponentCoordinate k b others) :
    factors = others := by
  refine merged.collected.increasing.ext merged_others.collected.increasing ?_
  rintro ⟨b, e⟩
  simp only [merged.mem_iff, merged_others.mem_iff, equal]

/-- The factors of a product before any base is raised; those whose exponents cancel are gone. -/
def mergedFactors (operands : List Expr) : List Factor :=
  (collectFactors operands).filter fun factor => !factor.2.isZero

theorem mem_mergedFactors_iff {operands : List Expr} {b e : Expr} :
    (b, e) ∈ mergedFactors operands ↔ (b, e) ∈ collectFactors operands ∧ e ≠ number 0 := by
  have nonzero : (!e.isZero) = true ↔ e ≠ number 0 := by
    rw [Bool.not_eq_true', ← Bool.not_eq_true, isZero, isNumber_iff]
  rw [mergedFactors, List.mem_filter, nonzero]

section Operands

variable {operands others : List Expr} (canonical : ∀ e ∈ operands, e.Canonical)

include canonical

theorem merged_mergedFactors : Merged (mergedFactors operands) where
  collected := (collected_collectFactors canonical).sublist List.filter_sublist
  nonzero _ _ member := (mem_mergedFactors_iff.mp member).2

theorem exponentCoordinate_mergedFactors (k : Option Expr) (b : Expr) :
    exponentCoordinate k b (mergedFactors operands) =
      exponentCoordinate k b (operands.flatMap factorPart) := by
  rw [mergedFactors, exponentCoordinate_nonzero, exponentCoordinate_collectFactors k b canonical]

theorem coordinate_sumOf_exponentsOf (k : Option Expr) (b : Expr) :
    coordinate k (sumOf (exponentsOf b (operands.flatMap factorPart))) =
      exponentCoordinate k b (operands.flatMap factorPart) := by
  refine coordinate_sumOf (fun f carried => ?_) k
  exact (canonical_factorParts canonical b f (mem_exponentsOf_iff.mp carried)).2

theorem canonical_sumOf_exponentsOf (b : Expr) :
    (sumOf (exponentsOf b (operands.flatMap factorPart))).Canonical := by
  refine canonical_sumOf fun f carried => ?_
  exact (canonical_factorParts canonical b f (mem_exponentsOf_iff.mp carried)).2

/-- The merged factors are the bases with the sums of the exponents that they carry. -/
theorem mem_mergedFactors_iff_total {b e : Expr} :
    (b, e) ∈ mergedFactors operands ↔
      e = sumOf (exponentsOf b (operands.flatMap factorPart)) ∧ e ≠ number 0 := by
  have total := coordinate_sumOf_exponentsOf canonical
  simp only [(merged_mergedFactors canonical).mem_iff, exponentCoordinate_mergedFactors canonical,
    ← total]
  constructor
  · rintro ⟨exponent, nonzero, equal⟩
    refine ⟨exponent.ext (canonical_sumOf_exponentsOf canonical b) fun k => (equal k).symm, nonzero⟩
  · rintro ⟨rfl, nonzero⟩
    exact ⟨canonical_sumOf_exponentsOf canonical b, nonzero, fun k => rfl⟩

/-- Which factors come of a product is settled by the exponents that each base carries. -/
theorem mergedFactors_ext (canonical_others : ∀ e ∈ others, e.Canonical)
    (equal : ∀ k b, exponentCoordinate k b (operands.flatMap factorPart) =
      exponentCoordinate k b (others.flatMap factorPart)) :
    mergedFactors operands = mergedFactors others := by
  refine (merged_mergedFactors canonical).ext (merged_mergedFactors canonical_others) fun k b => ?_
  rw [exponentCoordinate_mergedFactors canonical, exponentCoordinate_mergedFactors canonical_others,
    equal]

theorem mergedFactors_perm (perm : operands.Perm others) :
    mergedFactors operands = mergedFactors others := by
  have canonical_others : ∀ e ∈ others, e.Canonical := fun e member =>
    canonical e (perm.mem_iff.mpr member)
  refine mergedFactors_ext canonical canonical_others fun k b => ?_
  exact exponentCoordinate_perm k b (perm.flatMap_right factorPart)

end Operands

theorem collectCoefficient_eq (operands : List Expr) :
    collectCoefficient operands = (operands.map coefficientPart).prod := by
  induction operands with
  | nil => rfl
  | cons e rest ih => rw [collectCoefficient, ih, List.map_cons, List.prod_cons]

theorem collectCoefficient_append (operands others : List Expr) :
    collectCoefficient (operands ++ others) =
      collectCoefficient operands * collectCoefficient others := by
  simp only [collectCoefficient_eq, List.map_append, List.prod_append]

theorem collectCoefficient_perm {operands others : List Expr} (perm : operands.Perm others) :
    collectCoefficient operands = collectCoefficient others := by
  simp only [collectCoefficient_eq, (perm.map coefficientPart).prod_eq]

/-- Factors whose exponents cancelled are passed over. -/
theorem settledFactors_nonzero (factors : List Factor) :
    (settledFactors (factors.filter fun factor => !factor.2.isZero) : Except Error Settled) =
      settledFactors factors := by
  induction factors with
  | nil => rfl
  | cons head rest ih =>
    obtain ⟨b, e⟩ := head
    by_cases zero : e.isZero
    · rw [List.filter_cons_of_neg (by simpa using zero), ih, settledFactors_cons, if_pos zero]
    · rw [List.filter_cons_of_pos (by simpa using zero), settledFactors_cons, ih,
        settledFactors_cons]

/-- A product as a function of its coefficient and its merged factors. -/
theorem productOf_eq_settled (operands : List Expr) :
    (productOf operands : Except Error Expr) =
      if collectCoefficient operands = 0 then .ok (number 0)
      else (do
        let settled ← settledFactors (mergedFactors operands)
        let coefficient := collectCoefficient operands * settled.coefficient
        if coefficient = 0 then .ok (number 0)
        else if settled.rewritten = [] then .ok (assembleProduct coefficient settled.kept)
        else productOf (settled.rewritten ++ partsOf settled.kept ++ [number coefficient])) := by
  rw [productOf_eq, mergedFactors, settledFactors_nonzero]
  rfl

/-- If every merged factor stays as it is, a product takes a single pass. -/
theorem productOf_of_canonicalFactors {operands : List Expr}
    (unchanged : ∀ b e, (b, e) ∈ mergedFactors operands → CanonicalFactor b e) :
    (productOf operands : Except Error Expr) =
      .ok (if collectCoefficient operands = 0 then number 0
        else assembleProduct (collectCoefficient operands) (mergedFactors operands)) := by
  rw [productOf_eq_settled, settledFactors_of_canonical unchanged]
  split
  · rfl
  · rename_i nonzero
    change (if _ * 1 = 0 then _ else _) = _
    rw [mul_one, if_neg nonzero]
    rfl

theorem productOf_congr {operands others : List Expr}
    (coefficient : collectCoefficient operands = collectCoefficient others)
    (factors : mergedFactors operands = mergedFactors others) :
    (productOf operands : Except Error Expr) = productOf others := by
  rw [productOf_eq_settled, productOf_eq_settled, coefficient, factors]

/-- Products do not depend on the order of their operands. -/
theorem productOf_perm {operands others : List Expr} (canonical : ∀ e ∈ operands, e.Canonical)
    (perm : operands.Perm others) :
    (productOf operands : Except Error Expr) = productOf others :=
  productOf_congr (collectCoefficient_perm perm) (mergedFactors_perm canonical perm)

end SymbolicAlgebra
