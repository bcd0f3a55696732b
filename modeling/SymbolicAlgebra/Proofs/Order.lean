import Mathlib.Algebra.Order.Ring.Rat
import SymbolicAlgebra.Expr.Compare

namespace SymbolicAlgebra

open Std (TransCmp OrientedCmp LawfulEqCmp)

/-- The outcomes of comparing `a` with `b`, `b` with `c` and `a` with `c` fit together: equals
compare alike, and what comes before comes before all that follows. -/
structure Composes (ab bc ac : Ordering) : Prop where
  left : ab = .eq → ac = bc
  right : bc = .eq → ac = ab
  before : ab = .lt → bc = .lt → ac = .lt

/-- Comparisons made one after the other fit together if each of them does. -/
theorem Composes.then {ab bc ac ab' bc' ac' : Ordering} (first : Composes ab bc ac)
    (second : Composes ab' bc' ac') : Composes (ab.then ab') (bc.then bc') (ac.then ac') where
  left equal := by
    obtain ⟨eq, eq'⟩ := Ordering.then_eq_eq.mp equal
    rw [first.left eq, second.left eq']
  right equal := by
    obtain ⟨eq, eq'⟩ := Ordering.then_eq_eq.mp equal
    rw [first.right eq, second.right eq']
  before less less' := by
    rcases Ordering.then_eq_lt.mp less with lt | ⟨eq, lt⟩ <;>
      rcases Ordering.then_eq_lt.mp less' with lt' | ⟨eq', lt'⟩
    · rw [first.before lt lt', Ordering.lt_then]
    · rw [first.right eq', lt, Ordering.lt_then]
    · rw [first.left eq, lt', Ordering.lt_then]
    · rw [first.left eq, eq', Ordering.eq_then, second.before lt lt']

theorem Composes.ne_gt {ab bc ac : Ordering} (composes : Composes ab bc ac) (le : ab ≠ .gt)
    (le' : bc ≠ .gt) : ac ≠ .gt := by
  cases first : ab with
  | eq => rwa [composes.left first]
  | gt => exact absurd first le
  | lt =>
    cases second : bc with
    | eq => rwa [composes.right second]
    | gt => exact absurd second le'
    | lt =>
      rw [composes.before first second]
      decide

theorem composes_of_transCmp {α : Type} {cmp : α → α → Ordering} [TransCmp cmp] (a b c : α) :
    Composes (cmp a b) (cmp b c) (cmp a c) :=
  ⟨TransCmp.congr_left, fun equal => (TransCmp.congr_right equal).symm, TransCmp.lt_trans⟩

theorem transCmp_of_composes {α : Type} {cmp : α → α → Ordering}
    (swap : ∀ a b, cmp b a = (cmp a b).swap)
    (composes : ∀ a b c, Composes (cmp a b) (cmp b c) (cmp a c)) : TransCmp cmp where
  eq_swap {a b} := swap b a
  isLE_trans {a b c} le le' := by
    rw [Ordering.isLE_iff_ne_gt] at le le' ⊢
    exact (composes a b c).ne_gt le le'

instance : TransCmp compareRanks :=
  inferInstanceAs (TransCmp (compare : Nat → Nat → Ordering))

instance : TransCmp compareValues :=
  Std.TransOrd.compareOfLessAndEq_of_antisymm_of_trans_of_total_of_not_le
    Rat.le_antisymm Rat.le_trans (fun _ _ => Rat.le_total) Rat.not_le

instance : TransCmp compareNames :=
  inferInstanceAs (TransCmp (compare : String → String → Ordering))

/-- Integers have a lower rank than other numbers. -/
theorem compareNumbers_eq_then (p q : Rat) :
    compareNumbers p q =
      (compareRanks (Expr.number p).rank (Expr.number q).rank).then (compareValues p q) := by
  unfold compareNumbers Expr.rank
  split <;> simp_all [compareRanks]
  split <;> split <;> simp_all

instance : TransCmp compareNumbers := by
  refine transCmp_of_composes (fun p q => ?_) fun p q r => ?_
  · simp only [compareNumbers_eq_then, Ordering.swap_then]
    rw [@OrientedCmp.eq_swap _ compareRanks _, @OrientedCmp.eq_swap _ compareValues _]
  · simp only [compareNumbers_eq_then]
    exact (composes_of_transCmp ..).then (composes_of_transCmp ..)

instance : TransCmp compareNameLists := by
  have lex : compareNameLists = List.compareLex compareNames := by
    funext xs ys
    induction xs generalizing ys with
    | nil => cases ys <;> rfl
    | cons x xs ih =>
      cases ys with
      | nil => rw [compareNameLists, List.compareLex_cons_nil]
      | cons y ys => rw [compareNameLists, List.compareLex_cons_cons, ih]
  rw [lex]
  infer_instance

namespace Expr

/-- Expressions built by one constructor. Integers and other numbers count as one. -/
inductive SameKind : Expr → Expr → Prop where
  | number (p q) : SameKind (number p) (number q)
  | symbol (s t) : SameKind (symbol s) (symbol t)
  | sum (c terms d terms') : SameKind (sum c terms) (sum d terms')
  | product (c factors d factors') : SameKind (product c factors) (product d factors')
  | power (b e b' e') : SameKind (power b e) (power b' e')
  | sin (a a') : SameKind (sin a) (sin a')
  | cos (a a') : SameKind (cos a) (cos a')
  | apply (f a g a') : SameKind (apply f a) (apply g a')
  | derivative (a xs a' ys) : SameKind (derivative a xs) (derivative a' ys)

theorem rank_number_le (q : Rat) : (number q).rank ≤ 1 := by
  show (if isInteger q = true then 0 else 1) ≤ 1
  split <;> omega

theorem sameKind_of_rank_eq {a b : Expr} (same : a.rank = b.rank) : a.SameKind b := by
  -- A number has one of two ranks, both below those of all other kinds.
  cases a with
  | number p =>
    have low := rank_number_le p
    cases b with
    | number q => exact .number p q
    | _ =>
      rw [same] at low
      simp [rank] at low
  | _ =>
    cases b with
    | number q =>
      have low := rank_number_le q
      rw [← same] at low
      simp [rank] at low
    | _ => first | constructor | cases same

/-- Expressions of different kinds are ordered by their kinds alone. -/
theorem order_of_rank_ne {a b : Expr} (different : a.rank ≠ b.rank) :
    a.order b = compareRanks a.rank b.rank := by
  cases a with
  | number p =>
    cases b with
    | number q =>
      rw [order, compareNumbers_eq_then]
      cases outcome : compareRanks (number p).rank (number q).rank with
      | eq => exact absurd (compareRanks_eq_iff.mp outcome) different
      | lt => rfl
      | gt => rfl
    | _ => rfl
  | _ => cases b <;> first | rfl | exact absurd rfl different

theorem orderTerms_swap {terms : List Multiple}
    (each : ∀ t q, (t, q) ∈ terms → ∀ u, u.order t = (t.order u).swap) (terms' : List Multiple) :
    orderTerms terms' terms = (orderTerms terms terms').swap := by
  induction terms generalizing terms' with
  | nil => cases terms' <;> rfl
  | cons head rest ih =>
    obtain ⟨t, q⟩ := head
    cases terms' with
    | nil => rfl
    | cons head' rest' =>
      have tail := ih (fun u r member => each u r (List.mem_cons_of_mem _ member)) rest'
      simp only [orderTerms, Ordering.swap_then]
      rw [tail, each t q (List.mem_cons_self ..), @OrientedCmp.eq_swap _ compareNumbers _]

theorem orderFactors_swap {factors : List Factor}
    (each : ∀ b e, (b, e) ∈ factors →
      (∀ c, c.order b = (b.order c).swap) ∧ ∀ f, f.order e = (e.order f).swap)
    (factors' : List Factor) :
    orderFactors factors' factors = (orderFactors factors factors').swap := by
  induction factors generalizing factors' with
  | nil => cases factors' <;> rfl
  | cons head rest ih =>
    obtain ⟨b, e⟩ := head
    cases factors' with
    | nil => rfl
    | cons head' rest' =>
      have tail := ih (fun c f member => each c f (List.mem_cons_of_mem _ member)) rest'
      have here := each b e (List.mem_cons_self ..)
      simp only [orderFactors, Ordering.swap_then]
      rw [tail, here.1, here.2]

/-- Only expressions of one kind need to be looked into. -/
theorem order_swap_of_sameKind {a b : Expr}
    (same : a.SameKind b → b.order a = (a.order b).swap) : b.order a = (a.order b).swap := by
  by_cases equal : a.rank = b.rank
  · exact same (sameKind_of_rank_eq equal)
  · rw [order_of_rank_ne equal, order_of_rank_ne (Ne.symm equal)]
    exact OrientedCmp.eq_swap

/-- The other comparison has the other outcome. -/
theorem order_swap (a b : Expr) : b.order a = (a.order b).swap := by
  induction a using Expr.induction generalizing b with
  | number p =>
    refine order_swap_of_sameKind fun same => ?_
    cases same with
    | number _ q =>
      simp only [order]
      exact OrientedCmp.eq_swap
  | symbol s =>
    refine order_swap_of_sameKind fun same => ?_
    cases same with
    | symbol _ t =>
      simp only [order]
      exact OrientedCmp.eq_swap
  | sum c terms each =>
    refine order_swap_of_sameKind fun same => ?_
    cases same with
    | sum _ _ d terms' =>
      have parts := orderTerms_swap each terms'
      simp only [order, Ordering.swap_then]
      rw [parts, @OrientedCmp.eq_swap _ compareNumbers _]
  | product c factors each =>
    refine order_swap_of_sameKind fun same => ?_
    cases same with
    | product _ _ d factors' =>
      have parts := orderFactors_swap each factors'
      simp only [order, Ordering.swap_then]
      rw [parts, @OrientedCmp.eq_swap _ compareNumbers _]
  | power b e base exponent =>
    refine order_swap_of_sameKind fun same => ?_
    cases same with
    | power _ _ b' e' =>
      simp only [order, Ordering.swap_then]
      rw [base, exponent]
  | sin a argument =>
    refine order_swap_of_sameKind fun same => ?_
    cases same with
    | sin _ a' => exact argument a'
  | cos a argument =>
    refine order_swap_of_sameKind fun same => ?_
    cases same with
    | cos _ a' => exact argument a'
  | apply f a argument =>
    refine order_swap_of_sameKind fun same => ?_
    cases same with
    | apply _ _ g a' =>
      simp only [order, Ordering.swap_then]
      rw [argument, @OrientedCmp.eq_swap _ compareNames _]
  | derivative a xs target =>
    refine order_swap_of_sameKind fun same => ?_
    cases same with
    | derivative _ _ a' ys =>
      simp only [order, Ordering.swap_then]
      rw [target, @OrientedCmp.eq_swap _ compareNameLists _]

theorem orderTerms_composes {terms : List Multiple}
    (each : ∀ t q, (t, q) ∈ terms → ∀ u v, Composes (t.order u) (u.order v) (t.order v))
    (terms' terms'' : List Multiple) :
    Composes (orderTerms terms terms') (orderTerms terms' terms'') (orderTerms terms terms'') := by
  induction terms generalizing terms' terms'' with
  | nil => cases terms' <;> cases terms'' <;> constructor <;> simp [orderTerms]
  | cons head rest ih =>
    obtain ⟨t, q⟩ := head
    cases terms' with
    | nil => cases terms'' <;> constructor <;> simp [orderTerms]
    | cons head' rest' =>
      cases terms'' with
      | nil => constructor <;> simp [orderTerms]
      | cons head'' rest'' =>
        have tail := ih (fun u r member => each u r (List.mem_cons_of_mem _ member)) rest' rest''
        have here := each t q (List.mem_cons_self ..) head'.1 head''.1
        simp only [orderTerms]
        exact (here.then (composes_of_transCmp ..)).then tail

theorem orderFactors_composes {factors : List Factor}
    (each : ∀ b e, (b, e) ∈ factors →
      (∀ c d, Composes (b.order c) (c.order d) (b.order d)) ∧
        ∀ f g, Composes (e.order f) (f.order g) (e.order g))
    (factors' factors'' : List Factor) :
    Composes (orderFactors factors factors') (orderFactors factors' factors'')
      (orderFactors factors factors'') := by
  induction factors generalizing factors' factors'' with
  | nil => cases factors' <;> cases factors'' <;> constructor <;> simp [orderFactors]
  | cons head rest ih =>
    obtain ⟨b, e⟩ := head
    cases factors' with
    | nil => cases factors'' <;> constructor <;> simp [orderFactors]
    | cons head' rest' =>
      cases factors'' with
      | nil => constructor <;> simp [orderFactors]
      | cons head'' rest'' =>
        have tail := ih (fun c f member => each c f (List.mem_cons_of_mem _ member)) rest' rest''
        have here := each b e (List.mem_cons_self ..)
        simp only [orderFactors]
        exact ((here.1 head'.1 head''.1).then (here.2 head'.2 head''.2)).then tail

theorem order_composes_of_sameKind {a b c : Expr}
    (same : a.SameKind b → b.SameKind c → Composes (a.order b) (b.order c) (a.order c)) :
    Composes (a.order b) (b.order c) (a.order c) := by
  by_cases first : a.rank = b.rank
  · by_cases second : b.rank = c.rank
    · exact same (sameKind_of_rank_eq first) (sameKind_of_rank_eq second)
    · have different : a.rank ≠ c.rank := first ▸ second
      rw [order_of_rank_ne second, order_of_rank_ne different, first]
      exact ⟨fun _ => rfl, fun equal => absurd (compareRanks_eq_iff.mp equal) second, fun _ => id⟩
  · by_cases second : b.rank = c.rank
    · have different : a.rank ≠ c.rank := second ▸ first
      rw [order_of_rank_ne first, order_of_rank_ne different, second]
      exact ⟨fun equal => absurd (compareRanks_eq_iff.mp equal) (second ▸ first), fun _ => rfl,
        fun less _ => less⟩
    · rw [order_of_rank_ne first, order_of_rank_ne second]
      have ranks := @composes_of_transCmp _ compareRanks _ a.rank b.rank c.rank
      refine ⟨fun equal => absurd (compareRanks_eq_iff.mp equal) first,
        fun equal => absurd (compareRanks_eq_iff.mp equal) second, fun less less' => ?_⟩
      have between := ranks.before less less'
      have different : a.rank ≠ c.rank := fun equal => by
        rw [compareRanks_eq_iff.mpr equal] at between
        cases between
      rwa [order_of_rank_ne different]

/-- Comparisons of any three expressions fit together. -/
theorem order_composes (a b c : Expr) : Composes (a.order b) (b.order c) (a.order c) := by
  induction a using Expr.induction generalizing b c with
  | number p =>
    refine order_composes_of_sameKind fun first second => ?_
    cases first
    cases second
    simp only [order]
    exact composes_of_transCmp ..
  | symbol s =>
    refine order_composes_of_sameKind fun first second => ?_
    cases first
    cases second
    simp only [order]
    exact composes_of_transCmp ..
  | sum p terms each =>
    refine order_composes_of_sameKind fun first second => ?_
    cases first with
    | sum _ _ q terms' =>
      cases second with
      | sum _ _ r terms'' =>
        have parts := orderTerms_composes each terms' terms''
        simp only [order]
        exact parts.then (composes_of_transCmp ..)
  | product p factors each =>
    refine order_composes_of_sameKind fun first second => ?_
    cases first with
    | product _ _ q factors' =>
      cases second with
      | product _ _ r factors'' =>
        have parts := orderFactors_composes each factors' factors''
        simp only [order]
        exact parts.then (composes_of_transCmp ..)
  | power b₁ e₁ base exponent =>
    refine order_composes_of_sameKind fun first second => ?_
    cases first with
    | power _ _ b₂ e₂ =>
      cases second with
      | power _ _ b₃ e₃ =>
        simp only [order]
        exact (base b₂ b₃).then (exponent e₂ e₃)
  | sin a₁ argument =>
    refine order_composes_of_sameKind fun first second => ?_
    cases first with
    | sin _ a₂ =>
      cases second with
      | sin _ a₃ => exact argument a₂ a₃
  | cos a₁ argument =>
    refine order_composes_of_sameKind fun first second => ?_
    cases first with
    | cos _ a₂ =>
      cases second with
      | cos _ a₃ => exact argument a₂ a₃
  | apply f a₁ argument =>
    refine order_composes_of_sameKind fun first second => ?_
    cases first with
    | apply _ _ g a₂ =>
      cases second with
      | apply _ _ h a₃ =>
        simp only [order]
        exact (composes_of_transCmp ..).then (argument a₂ a₃)
  | derivative a₁ xs target =>
    refine order_composes_of_sameKind fun first second => ?_
    cases first with
    | derivative _ _ a₂ ys =>
      cases second with
      | derivative _ _ a₃ zs =>
        simp only [order]
        exact (target a₂ a₃).then (composes_of_transCmp ..)

instance : TransCmp order :=
  transCmp_of_composes order_swap order_composes

instance : LawfulEqCmp order where
  compare_self := order_eq_iff.mpr rfl
  eq_of_compare equal := order_eq_iff.mp equal

instance : TransCmp compare := by
  have same : compare = order := by
    funext a b
    exact compare_eq_order a b
  rw [same]
  infer_instance

theorem compare_self_ne_lt (a : Expr) : a.compare a ≠ .lt := by
  rw [compare_eq_iff.mpr rfl]
  decide

theorem compare_lt_asymm {a b : Expr} (less : a.compare b = .lt) : b.compare a ≠ .lt := by
  intro greater
  exact compare_self_ne_lt a (TransCmp.lt_trans less greater)

end Expr

end SymbolicAlgebra
