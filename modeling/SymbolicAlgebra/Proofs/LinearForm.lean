import Mathlib.Algebra.BigOperators.Group.List.Basic
import Mathlib.Algebra.BigOperators.Ring.List
import Mathlib.Data.List.Permutation
import Mathlib.Data.List.Sort
import Mathlib.Data.Rat.Cast.CharZero
import SymbolicAlgebra.Proofs.Canonical

namespace SymbolicAlgebra

open SymbolicAlgebra.Expr

section Combination

variable {K : Type*} [DivisionRing K]

/-- The sum of multiples of whatever `f` makes of the expressions. -/
def combination (f : Expr → K) (multiples : List Multiple) : K :=
  (multiples.map fun (t, q) => (q : K) * f t).sum

theorem combination_congr {f g : Expr → K} {multiples : List Multiple}
    (same : ∀ t q, (t, q) ∈ multiples → f t = g t) :
    combination f multiples = combination g multiples :=
  congrArg List.sum (List.map_congr_left fun multiple member =>
    congrArg ((multiple.2 : K) * ·) (same multiple.1 multiple.2 member))

variable (f : Expr → K)

theorem combination_cons (t : Expr) (q : Rat) (rest : List Multiple) :
    combination f ((t, q) :: rest) = q * f t + combination f rest := rfl

theorem combination_append (multiples others : List Multiple) :
    combination f (multiples ++ others) = combination f multiples + combination f others := by
  rw [combination, List.map_append, List.sum_append]
  rfl

theorem combination_flatMap (part : Expr → List Multiple) (es : List Expr) :
    combination f (es.flatMap part) = (es.map fun e => combination f (part e)).sum := by
  induction es with
  | nil => rfl
  | cons e rest ih => rw [List.flatMap_cons, combination_append, ih, List.map_cons, List.sum_cons]

theorem combination_perm {multiples others : List Multiple} (perm : multiples.Perm others) :
    combination f multiples = combination f others :=
  (perm.map _).sum_eq

theorem combination_filter (multiples : List Multiple) :
    combination f (multiples.filter (·.2 ≠ 0)) = combination f multiples := by
  induction multiples with
  | nil => rfl
  | cons head rest ih =>
    obtain ⟨t, q⟩ := head
    rw [List.filter_cons]
    split
    · rw [combination_cons, ih, combination_cons]
    · rename_i zero
      obtain rfl : q = 0 := by simpa using zero
      rw [ih, combination_cons, Rat.cast_zero, zero_mul, zero_add]

variable [CharZero K]

theorem combination_map (p : Rat) (multiples : List Multiple) :
    combination f (multiples.map fun (t, q) => (t, p * q)) = p * combination f multiples := by
  induction multiples with
  | nil => exact (mul_zero _).symm
  | cons head rest ih =>
    rw [List.map_cons, combination_cons, ih, combination_cons, Rat.cast_mul, mul_add, mul_assoc]

theorem combination_mergeNeighbours (multiples : List Multiple) :
    combination f (mergeNeighbours multiples) = combination f multiples := by
  induction multiples with
  | nil => rfl
  | cons head rest ih =>
    obtain ⟨t, q⟩ := head
    rw [mergeNeighbours, combination_cons, ← ih]
    split
    · rename_i empty
      rw [empty, combination_cons]
    · rename_i u r others found
      rw [found]
      split
      · rename_i same
        subst same
        rw [combination_cons, combination_cons, ← add_assoc, Rat.cast_add, add_mul]
      · rw [combination_cons]

/-- Collecting terms does not change what they add up to. -/
theorem combination_collectTerms (multiples : List Multiple) :
    combination f (collectTerms multiples) = combination f multiples := by
  rw [collectTerms, combination_filter, combination_mergeNeighbours]
  exact combination_perm f (List.mergeSort_perm ..)

end Combination

/-- How often an expression occurs among multiples, all multiplicities added. -/
def multiplicityOf (t : Expr) (multiples : List Multiple) : Rat :=
  combination (fun u => if u = t then 1 else 0) multiples

theorem multiplicityOf_cons (t u : Expr) (q : Rat) (rest : List Multiple) :
    multiplicityOf t ((u, q) :: rest) = (if u = t then q else 0) + multiplicityOf t rest := by
  rw [multiplicityOf, combination_cons, Rat.cast_id, mul_ite, mul_one, mul_zero]
  rfl

theorem multiplicityOf_map (t : Expr) (p : Rat) (multiples : List Multiple) :
    multiplicityOf t (multiples.map fun (u, q) => (u, p * q)) = p * multiplicityOf t multiples := by
  rw [multiplicityOf, combination_map, Rat.cast_id]
  rfl

theorem multiplicityOf_eq_zero {t : Expr} {multiples : List Multiple}
    (absent : ∀ u q, (u, q) ∈ multiples → u ≠ t) : multiplicityOf t multiples = 0 := by
  induction multiples with
  | nil => rfl
  | cons head rest ih =>
    obtain ⟨u, q⟩ := head
    have other : u ≠ t := absent u q (List.mem_cons_self ..)
    have tail := ih fun v r member => absent v r (List.mem_cons_of_mem _ member)
    rw [multiplicityOf_cons, if_neg other, tail, add_zero]

/-- Merging equal neighbours of an ordered list leaves no two terms equal. -/
theorem increasing_mergeNeighbours {multiples : List Multiple}
    (ordered : multiples.Pairwise fun x y => (x.1.compare y.1).isLE = true) :
    Increasing (mergeNeighbours multiples) ∧
      ∀ u r, (u, r) ∈ mergeNeighbours multiples → ∃ q, (u, q) ∈ multiples := by
  induction multiples with
  | nil =>
    refine ⟨List.Pairwise.nil, fun u r member => ?_⟩
    cases member
  | cons head rest ih =>
    obtain ⟨t, q⟩ := head
    obtain ⟨before, ordered_rest⟩ := List.pairwise_cons.mp ordered
    obtain ⟨increasing, origin⟩ := ih ordered_rest
    have later (u : Expr) (r : Rat) (member : (u, r) ∈ mergeNeighbours rest) :
        ∃ q', (u, q') ∈ (t, q) :: rest := by
      obtain ⟨q', inside⟩ := origin u r member
      exact ⟨q', List.mem_cons_of_mem _ inside⟩
    have first_le (u : Expr) (r : Rat) (member : (u, r) ∈ mergeNeighbours rest) :
        (t.compare u).isLE = true := by
      obtain ⟨q', inside⟩ := origin u r member
      exact before _ inside
    rw [mergeNeighbours]
    split
    · refine ⟨List.pairwise_singleton .., fun u r member => ?_⟩
      cases List.mem_singleton.mp member
      exact ⟨q, List.mem_cons_self ..⟩
    · rename_i v r others found
      rw [found] at increasing later first_le
      obtain ⟨least, increasing_others⟩ := List.pairwise_cons.mp increasing
      split
      · rename_i same
        subst same
        refine ⟨List.pairwise_cons.mpr ⟨least, increasing_others⟩, fun u p member => ?_⟩
        rcases List.mem_cons.mp member with equal | member
        · cases equal
          exact ⟨q, List.mem_cons_self ..⟩
        · exact later u p (List.mem_cons_of_mem _ member)
      · rename_i different
        have less : t.compare v = .lt := by
          rcases Ordering.isLE_iff_eq_lt_or_eq_eq.mp (first_le v r (List.mem_cons_self ..)) with
            less | equal
          · exact less
          · exact absurd (compare_eq_iff.mp equal) different
        have least_of_all (y : Multiple) (member : y ∈ (v, r) :: others) :
            t.compare y.1 = .lt := by
          rcases List.mem_cons.mp member with rfl | member
          · exact less
          · exact Std.TransCmp.lt_trans less (least y member)
        refine ⟨List.pairwise_cons.mpr ⟨least_of_all, increasing⟩, fun u p member => ?_⟩
        rcases List.mem_cons.mp member with equal | member
        · cases equal
          exact ⟨q, List.mem_cons_self ..⟩
        · exact later u p member

theorem ordered_mergeSort {β : Type} (pairs : List (Expr × β)) :
    (pairs.mergeSort fun x y => (x.1.compare y.1).isLE).Pairwise
      fun x y => (x.1.compare y.1).isLE = true := by
  refine List.pairwise_mergeSort ?_ ?_ pairs
  · intro x y z first second
    exact Std.TransCmp.isLE_trans first second
  · intro x y
    rw [@Std.OrientedCmp.eq_swap _ compare _ y.1 x.1]
    cases x.1.compare y.1 <;> rfl

/-- Every term once, in order, and none with multiplicity zero. -/
structure Reduced (terms : List Multiple) : Prop where
  increasing : Increasing terms
  multiplicity : ∀ t q, (t, q) ∈ terms → q ≠ 0

theorem reduced_collectTerms (multiples : List Multiple) : Reduced (collectTerms multiples) where
  increasing := (increasing_mergeNeighbours (ordered_mergeSort multiples)).1.filter _
  multiplicity t q member := by
    have nonzero := (List.mem_filter.mp member).2
    exact of_decide_eq_true nonzero

theorem mem_of_mem_collectTerms {multiples : List Multiple} {t : Expr} {q : Rat}
    (member : (t, q) ∈ collectTerms multiples) : ∃ r, (t, r) ∈ multiples := by
  have merged := (List.mem_filter.mp member).1
  obtain ⟨r, sorted⟩ := (increasing_mergeNeighbours (ordered_mergeSort multiples)).2 t q merged
  exact ⟨r, List.mem_mergeSort.mp sorted⟩

theorem Increasing.multiplicityOf_eq {terms : List Multiple} (increasing : Increasing terms)
    {t : Expr} {q : Rat} (member : (t, q) ∈ terms) : multiplicityOf t terms = q := by
  induction terms with
  | nil => cases member
  | cons head rest ih =>
    obtain ⟨u, r⟩ := head
    obtain ⟨least, increasing_rest⟩ := List.pairwise_cons.mp increasing
    rw [multiplicityOf_cons]
    rcases List.mem_cons.mp member with equal | later
    · cases equal
      have absent : multiplicityOf t rest = 0 := by
        refine multiplicityOf_eq_zero fun v p inside => ?_
        rintro rfl
        exact compare_self_ne_lt v (least _ inside)
      rw [if_pos rfl, absent, add_zero]
    · have other : u ≠ t := by
        rintro rfl
        exact compare_self_ne_lt u (least _ later)
      rw [if_neg other, zero_add]
      exact ih increasing_rest later

theorem Reduced.mem_iff {terms : List Multiple} (reduced : Reduced terms) {t : Expr} {q : Rat} :
    (t, q) ∈ terms ↔ q ≠ 0 ∧ multiplicityOf t terms = q := by
  constructor
  · intro member
    exact ⟨reduced.multiplicity t q member, reduced.increasing.multiplicityOf_eq member⟩
  · rintro ⟨nonzero, total⟩
    by_contra absent
    have missing : ∀ u r, (u, r) ∈ terms → u ≠ t := by
      rintro u r member rfl
      rw [reduced.increasing.multiplicityOf_eq member] at total
      exact absent (total ▸ member)
    rw [multiplicityOf_eq_zero missing] at total
    exact nonzero total.symm

/-- Increasing lists are determined by their members. -/
theorem Increasing.ext {β : Type} {pairs others : List (Expr × β)} (increasing : Increasing pairs)
    (increasing_others : Increasing others) (equal : ∀ x, x ∈ pairs ↔ x ∈ others) :
    pairs = others := by
  have irreflexive : Std.Irrefl fun x y : Expr × β => x.1.compare y.1 = .lt :=
    ⟨fun x => compare_self_ne_lt x.1⟩
  have antisymmetric : Std.Antisymm fun x y : Expr × β => x.1.compare y.1 = .lt :=
    ⟨fun _ _ less greater => absurd greater (compare_lt_asymm less)⟩
  exact List.Pairwise.eq_of_mem_iff increasing increasing_others fun x => equal x

theorem Increasing.nodup_fst {β : Type} {pairs : List (Expr × β)} (increasing : Increasing pairs) :
    (pairs.map Prod.fst).Nodup := by
  refine List.pairwise_map.mpr (increasing.imp fun {x y} less same => ?_)
  rw [same] at less
  exact compare_self_ne_lt _ less

theorem Increasing.eq_of_mem {β : Type} {t : Expr} {x y : β} {pairs : List (Expr × β)}
    (increasing : Increasing pairs) (first : (t, x) ∈ pairs) (second : (t, y) ∈ pairs) : x = y :=
  congrArg Prod.snd (List.inj_on_of_nodup_map increasing.nodup_fst first second rfl)

/-- Sorting restores an increasing list from any other order. -/
theorem Increasing.mergeSort_eq {β : Type} {pairs others : List (Expr × β)}
    (increasing : Increasing pairs) (perm : others.Perm pairs) :
    (others.mergeSort fun x y => (x.1.compare y.1).isLE) = pairs := by
  have sorted := (List.mergeSort_perm others fun x y => (x.1.compare y.1).isLE).trans perm
  have ordered : pairs.Pairwise fun x y => (x.1.compare y.1).isLE = true :=
    increasing.imp fun less => by rw [less]; rfl
  refine List.Perm.eq_of_pairwise ?_ (ordered_mergeSort others) ordered sorted
  rintro ⟨t, x⟩ ⟨u, y⟩ left right below above
  obtain rfl : t = u := compare_eq_iff.mp (Std.OrientedCmp.isLE_antisymm below above)
  rw [increasing.eq_of_mem (sorted.mem_iff.mp left) right]

/-- Reduced terms are determined by their multiplicities. -/
theorem Reduced.ext {terms others : List Multiple} (reduced : Reduced terms)
    (reduced_others : Reduced others)
    (equal : ∀ t, multiplicityOf t terms = multiplicityOf t others) : terms = others := by
  refine reduced.increasing.ext reduced_others.increasing ?_
  rintro ⟨t, q⟩
  rw [reduced.mem_iff, reduced_others.mem_iff, equal]

namespace Expr

/-- The form in which a canonical expression enters a sum. -/
def linearForm (e : Expr) : LinearForm where
  constant := e.constantPart
  terms := e.termPart

theorem constantPart_of_isTerm {t : Expr} (term : t.IsTerm) : t.constantPart = 0 := by
  cases t <;> first | rfl | exact absurd term id

theorem coefficientPart_of_isTerm {t : Expr} (term : t.IsTerm) : t.coefficientPart = 1 := by
  cases t with
  | number q => exact absurd term id
  | product q factors => exact term
  | _ => rfl

theorem termPart_of_isTerm {t : Expr} (canonical : Canonical t) (term : t.IsTerm) :
    t.termPart = [(t, 1)] := by
  cases t with
  | number q => exact absurd term id
  | sum c terms => exact absurd term id
  | product q factors =>
    have whole := canonical.withCoefficient_factorPart term
    obtain rfl : q = 1 := term
    exact congrArg (fun u => [(u, (1 : Rat))]) whole
  | _ => rfl

namespace KeptFactors

variable {factors : List Factor}

theorem constantPart_withCoefficient (kept : KeptFactors factors) (q : Rat) :
    (withCoefficient q factors).constantPart = 0 := by
  by_cases zero : q = 0
  · rw [zero, withCoefficient_zero]
    rfl
  · rcases kept.withCoefficient_cases zero with ⟨b, e, rfl, rfl, _⟩ | ⟨_, whole⟩
    · exact constantPart_of_isTerm kept.isTerm
    · rw [whole]
      rfl

theorem termPart_withCoefficient (kept : KeptFactors factors) {q : Rat} (nonzero : q ≠ 0) :
    (withCoefficient q factors).termPart = [(withCoefficient 1 factors, q)] := by
  rcases kept.withCoefficient_cases nonzero with ⟨b, e, rfl, rfl, _⟩ | ⟨_, whole⟩
  · exact termPart_of_isTerm (kept.canonical_withCoefficient 1) kept.isTerm
  · rw [whole]
    rfl

end KeptFactors

theorem scale_zero (e : Expr) : e.scale 0 = number 0 := by
  unfold scale
  exact if_pos rfl

theorem scale_one (e : Expr) : e.scale 1 = e := by
  unfold scale
  rw [if_neg one_ne_zero, if_pos rfl]

theorem scale_number (q r : Rat) : (number r).scale q = number (q * r) := by
  by_cases zero : q = 0
  · rw [zero, scale_zero, zero_mul]
  · by_cases one : q = 1
    · rw [one, scale_one, one_mul]
    · unfold scale
      rw [if_neg zero, if_neg one]

theorem scale_integers (n m : Int) : (number m).scale n = number ((n * m : Int) : Rat) := by
  rw [scale_number, Int.cast_mul]

theorem scale_sum {q : Rat} (nonzero : q ≠ 0) (constant : Rat) (terms : List Multiple) :
    (sum constant terms).scale q = sum (q * constant) (terms.map fun (t, r) => (t, q * r)) := by
  by_cases one : q = 1
  · rw [one, scale_one, one_mul]
    simp only [one_mul, List.map_id']
  · unfold scale
    rw [if_neg nonzero, if_neg one]

/-- A multiple of a term is the product of its factors under a coefficient. -/
theorem scale_eq_withCoefficient {t : Expr} (canonical : Canonical t) (term : t.IsTerm) (q : Rat) :
    t.scale q = withCoefficient q t.factorPart := by
  by_cases zero : q = 0
  · rw [zero, scale_zero, withCoefficient_zero]
  · by_cases one : q = 1
    · rw [one, scale_one, canonical.withCoefficient_factorPart term]
    · unfold scale
      rw [if_neg zero, if_neg one]
      cases t with
      | number p => exact absurd term id
      | sum c terms => exact absurd term id
      | product p factors =>
        obtain rfl : p = 1 := term
        exact congrArg (fun p => withCoefficient p factors) (mul_one q)
      | _ => rfl

end Expr

/-- A combination as a canonical expression stands for it. -/
structure LinearForm.Valid (form : LinearForm) : Prop where
  reduced : Reduced form.terms
  bare : ∀ t q, (t, q) ∈ form.terms → t.IsTerm
  canonical : ∀ t q, (t, q) ∈ form.terms → t.Canonical

namespace LinearForm

variable {form : LinearForm}

theorem toExpr_lone (t : Expr) (q : Rat) : toExpr ⟨0, [(t, q)]⟩ = t.scale q := by
  unfold toExpr
  exact if_pos rfl

theorem Valid.toExpr_cases (valid : form.Valid) :
    (form.terms = [] ∧ form.toExpr = .number form.constant) ∨
    (∃ t q, form.constant = 0 ∧ form.terms = [(t, q)] ∧ q ≠ 0 ∧ t.IsTerm ∧ t.Canonical ∧
      form.toExpr = withCoefficient q t.factorPart) ∨
    (CanonicalSum form.constant form.terms ∧ form.toExpr = .sum form.constant form.terms) := by
  obtain ⟨constant, terms⟩ := form
  have sum (nonempty : terms ≠ []) (not_lone : constant = 0 → terms.length ≠ 1) :
      CanonicalSum constant terms :=
    ⟨nonempty, not_lone, valid.reduced.increasing, valid.bare, valid.reduced.multiplicity⟩
  match terms, valid, sum with
  | [], _, _ => exact .inl ⟨rfl, rfl⟩
  | [(t, q)], valid, sum =>
    have member : (t, q) ∈ [(t, q)] := List.mem_singleton_self _
    by_cases zero : constant = 0
    · subst zero
      have term := valid.bare t q member
      have canonical := valid.canonical t q member
      have nonzero := valid.reduced.multiplicity t q member
      have scaled := toExpr_lone t q
      rw [scale_eq_withCoefficient canonical term] at scaled
      exact .inr (.inl ⟨t, q, rfl, rfl, nonzero, term, canonical, scaled⟩)
    · exact .inr (.inr ⟨sum (by simp) fun equal => absurd equal zero, if_neg zero⟩)
  | _ :: _ :: _, _, sum => exact .inr (.inr ⟨sum (by simp) (by simp), rfl⟩)

/-- The expression of a combination is canonical. -/
theorem Valid.canonical_toExpr (valid : form.Valid) : form.toExpr.Canonical := by
  rcases valid.toExpr_cases with ⟨_, whole⟩ | ⟨t, q, _, _, _, term, canonical, whole⟩ | ⟨sum, whole⟩
  · rw [whole]
    exact canonical_number _
  · rw [whole]
    exact (canonical.keptFactors term).canonical_withCoefficient q
  · rw [whole]
    exact .sum sum valid.canonical

/-- Nothing is lost when a combination is made an expression. -/
theorem Valid.linearForm_toExpr (valid : form.Valid) : form.toExpr.linearForm = form := by
  rcases valid.toExpr_cases with ⟨none, whole⟩ |
    ⟨t, q, zero, lone, nonzero, term, canonical, whole⟩ | ⟨_, whole⟩
  · rw [whole]
    exact congrArg (LinearForm.mk form.constant) none.symm
  · have kept := canonical.keptFactors term
    rw [whole, linearForm, kept.constantPart_withCoefficient, kept.termPart_withCoefficient nonzero,
      canonical.withCoefficient_factorPart term, ← zero, ← lone]
  · rw [whole]
    rfl

theorem Valid.ext {other : LinearForm} (valid : form.Valid) (valid_other : other.Valid)
    (constant : form.constant = other.constant)
    (terms : ∀ t, multiplicityOf t form.terms = multiplicityOf t other.terms) : form = other := by
  obtain ⟨c, multiples⟩ := form
  obtain ⟨d, multiples'⟩ := other
  obtain rfl : c = d := constant
  obtain rfl := valid.reduced.ext valid_other.reduced terms
  rfl

end LinearForm

namespace Expr

/-- Multiples of kept factors are multiplied through their coefficients. -/
theorem KeptFactors.scale_withCoefficient {factors : List Factor} (kept : KeptFactors factors)
    (p q : Rat) : (withCoefficient q factors).scale p = withCoefficient (p * q) factors := by
  by_cases zero : q = 0
  · rw [zero, mul_zero, withCoefficient_zero, scale_number, mul_zero]
  · rcases kept.withCoefficient_cases zero with ⟨b, e, rfl, rfl, _⟩ | ⟨_, whole⟩
    · rw [scale_eq_withCoefficient (kept.canonical_withCoefficient 1) kept.isTerm,
        kept.factorPart_withCoefficient zero, mul_one]
    · by_cases none : p = 0
      · rw [none, scale_zero, zero_mul, withCoefficient_zero]
      · by_cases one : p = 1
        · rw [one, scale_one, one_mul]
        · rw [whole]
          unfold scale
          rw [if_neg none, if_neg one]

theorem linearForm_withCoefficient {factors : List Factor} (kept : KeptFactors factors) {q : Rat}
    (nonzero : q ≠ 0) :
    (withCoefficient q factors).linearForm = ⟨0, [(withCoefficient 1 factors, q)]⟩ := by
  rw [linearForm, kept.constantPart_withCoefficient, kept.termPart_withCoefficient nonzero]

theorem Canonical.valid_linearForm {e : Expr} (canonical : Canonical e) : e.linearForm.Valid := by
  cases canonical.shape with
  | number q => refine ⟨⟨List.Pairwise.nil, ?_⟩, ?_, ?_⟩ <;> intro t q member <;> cases member
  | sum form each => exact ⟨⟨form.increasing, form.multiplicity⟩, form.bare, each⟩
  | multiple nonzero kept =>
    rw [linearForm_withCoefficient kept nonzero]
    refine ⟨⟨List.pairwise_singleton .., fun t r member => ?_⟩, fun t r member => ?_,
      fun t r member => ?_⟩
    · cases List.mem_singleton.mp member
      exact nonzero
    · cases List.mem_singleton.mp member
      exact kept.isTerm
    · cases List.mem_singleton.mp member
      exact kept.canonical_withCoefficient 1

/-- A canonical expression is determined by the form in which it enters a sum. -/
theorem Canonical.toExpr_linearForm {e : Expr} (canonical : Canonical e) :
    e.linearForm.toExpr = e := by
  cases canonical.shape with
  | number q => rfl
  | @sum constant terms form each =>
    match terms, form with
    | [], form => exact absurd rfl form.nonempty
    | [(t, q)], form =>
      have nonzero : constant ≠ 0 := fun zero => form.not_lone zero rfl
      exact if_neg nonzero
    | _ :: _ :: _, _ => rfl
  | multiple nonzero kept =>
    rw [linearForm_withCoefficient kept nonzero]
    rw [LinearForm.toExpr_lone, kept.scale_withCoefficient, mul_one]

theorem CanonicalSum.scale {q constant : Rat} {terms : List Multiple} (nonzero : q ≠ 0)
    (form : CanonicalSum constant terms) :
    CanonicalSum (q * constant) (terms.map fun (t, r) => (t, q * r)) where
  nonempty empty := form.nonempty (List.map_eq_nil_iff.mp empty)
  not_lone zero := by
    rw [List.length_map]
    exact form.not_lone ((mul_eq_zero.mp zero).resolve_left nonzero)
  increasing := List.pairwise_map.mpr form.increasing
  bare t p member := by
    obtain ⟨⟨u, r⟩, inside, equal⟩ := List.mem_map.mp member
    cases equal
    exact form.bare _ r inside
  multiplicity t p member := by
    obtain ⟨⟨u, r⟩, inside, equal⟩ := List.mem_map.mp member
    cases equal
    exact mul_ne_zero nonzero (form.multiplicity _ r inside)

theorem Canonical.scale {e : Expr} (canonical : Canonical e) (q : Rat) :
    Canonical (e.scale q) := by
  by_cases zero : q = 0
  · rw [zero, scale_zero]
    exact canonical_number 0
  cases canonical.shape with
  | number r =>
    rw [scale_number]
    exact canonical_number _
  | sum form each =>
    rw [scale_sum zero]
    refine .sum (form.scale zero) fun t p member => ?_
    obtain ⟨⟨u, r⟩, inside, equal⟩ := List.mem_map.mp member
    cases equal
    exact each _ r inside
  | multiple nonzero kept =>
    rw [kept.scale_withCoefficient]
    exact kept.canonical_withCoefficient _

/-- The coordinates of an expression: its constant, and the multiplicity of each term. -/
def coordinate : Option Expr → Expr → Rat
  | none, e => e.constantPart
  | some t, e => multiplicityOf t e.termPart

/-- Canonical expressions with the same coordinates are equal. -/
theorem Canonical.ext {a b : Expr} (left : Canonical a) (right : Canonical b)
    (equal : ∀ k, coordinate k a = coordinate k b) : a = b := by
  have forms : a.linearForm = b.linearForm :=
    left.valid_linearForm.ext right.valid_linearForm (equal none) fun t => equal (some t)
  rw [← left.toExpr_linearForm, forms, right.toExpr_linearForm]

theorem coordinate_number_zero (k : Option Expr) : coordinate k (number 0) = 0 := by
  cases k <;> rfl

theorem coordinate_scale {e : Expr} (canonical : Canonical e) (q : Rat) (k : Option Expr) :
    coordinate k (e.scale q) = q * coordinate k e := by
  by_cases zero : q = 0
  · rw [zero, scale_zero, zero_mul, coordinate_number_zero]
  cases canonical.shape with
  | number r =>
    rw [scale_number]
    cases k with
    | none => rfl
    | some t => exact (mul_zero q).symm
  | @sum constant terms form each =>
    rw [scale_sum zero]
    cases k with
    | none => rfl
    | some t => exact multiplicityOf_map t q terms
  | @multiple r factors nonzero kept =>
    rw [kept.scale_withCoefficient]
    cases k with
    | none => simp only [coordinate, kept.constantPart_withCoefficient, mul_zero]
    | some t =>
      rw [coordinate, coordinate, kept.termPart_withCoefficient (mul_ne_zero zero nonzero),
        kept.termPart_withCoefficient nonzero]
      exact multiplicityOf_map t q [(withCoefficient 1 factors, r)]

theorem valid_ofSummands {summands : List Expr} (canonical : ∀ e ∈ summands, Canonical e) :
    (LinearForm.ofSummands summands).Valid := by
  have origin (t : Expr) (q : Rat) (member : (t, q) ∈ (LinearForm.ofSummands summands).terms) :
      ∃ (e : Expr) (r : Rat), e.linearForm.Valid ∧ (t, r) ∈ e.linearForm.terms := by
    obtain ⟨r, collected⟩ := mem_of_mem_collectTerms member
    obtain ⟨e, summand, part⟩ := List.mem_flatMap.mp collected
    exact ⟨e, r, (canonical e summand).valid_linearForm, part⟩
  refine ⟨reduced_collectTerms _, fun t q member => ?_, fun t q member => ?_⟩
  · obtain ⟨e, r, valid, part⟩ := origin t q member
    exact valid.bare t r part
  · obtain ⟨e, r, valid, part⟩ := origin t q member
    exact valid.canonical t r part

/-- The sum of canonical expressions is canonical. -/
theorem canonical_sumOf {summands : List Expr} (canonical : ∀ e ∈ summands, Canonical e) :
    Canonical (sumOf summands) :=
  (valid_ofSummands canonical).canonical_toExpr

theorem termPart_sumOf {summands : List Expr} (canonical : ∀ e ∈ summands, Canonical e) :
    (sumOf summands).termPart = collectTerms (summands.flatMap termPart) :=
  congrArg LinearForm.terms (valid_ofSummands canonical).linearForm_toExpr

theorem collectConstant_eq (summands : List Expr) :
    collectConstant summands = (summands.map constantPart).sum := by
  induction summands with
  | nil => rfl
  | cons e rest ih => rw [collectConstant, ih, List.map_cons, List.sum_cons]

/-- Every term of a sum is one of a summand. -/
theorem exists_of_mem_termPart_sumOf {summands : List Expr}
    (canonical : ∀ e ∈ summands, Canonical e) {t : Expr} {q : Rat}
    (member : (t, q) ∈ (sumOf summands).termPart) : ∃ e ∈ summands, ∃ r, (t, r) ∈ e.termPart := by
  rw [termPart_sumOf canonical] at member
  obtain ⟨r, collected⟩ := mem_of_mem_collectTerms member
  obtain ⟨e, summand, part⟩ := List.mem_flatMap.mp collected
  exact ⟨e, summand, r, part⟩

/-- A combination of the terms and the constant of a sum is the sum of those of the summands. -/
theorem combination_sumOf (f : Expr → Rat) (unit : Rat) {summands : List Expr}
    (canonical : ∀ e ∈ summands, Canonical e) :
    (sumOf summands).constantPart * unit + combination f (sumOf summands).termPart =
      (summands.map fun e => e.constantPart * unit + combination f e.termPart).sum := by
  have constant : (sumOf summands).constantPart = (summands.map constantPart).sum :=
    (congrArg LinearForm.constant (valid_ofSummands canonical).linearForm_toExpr).trans
      (collectConstant_eq summands)
  rw [constant, termPart_sumOf canonical, combination_collectTerms, combination_flatMap,
    List.sum_map_add, List.sum_map_mul_right]

/-- The coordinates of a sum are the sums of the coordinates. -/
theorem coordinate_sumOf {summands : List Expr} (canonical : ∀ e ∈ summands, Canonical e)
    (k : Option Expr) : coordinate k (sumOf summands) = (summands.map (coordinate k)).sum := by
  cases k with
  | none =>
    have constants : (sumOf summands).constantPart = collectConstant summands :=
      congrArg LinearForm.constant (valid_ofSummands canonical).linearForm_toExpr
    exact constants.trans (collectConstant_eq summands)
  | some t =>
    rw [coordinate, termPart_sumOf canonical, multiplicityOf, combination_collectTerms,
      combination_flatMap]
    rfl

theorem coordinate_sumOf_pair {a b : Expr} (left : Canonical a) (right : Canonical b)
    (k : Option Expr) : coordinate k (sumOf [a, b]) = coordinate k a + coordinate k b := by
  rw [coordinate_sumOf (by simp [left, right])]
  simp

theorem canonical_sumOf_pair {a b : Expr} (left : Canonical a) (right : Canonical b) :
    Canonical (sumOf [a, b]) :=
  canonical_sumOf (by simp [left, right])

theorem sumOf_map_number (vs : List Rat) : sumOf (vs.map number) = number vs.sum := by
  have canonical : ∀ e ∈ vs.map number, e.Canonical := by
    intro e member
    obtain ⟨v, _, rfl⟩ := List.mem_map.mp member
    exact canonical_number v
  refine (canonical_sumOf canonical).ext (canonical_number _) fun k => ?_
  rw [coordinate_sumOf canonical, List.map_map]
  cases k with
  | none => exact congrArg List.sum (List.map_id' vs)
  | some t => exact List.sum_map_zero

theorem sumOf_numbers (q r : Rat) : sumOf [number q, number r] = number (q + r) := by
  simpa using sumOf_map_number [q, r]

end Expr

end SymbolicAlgebra
