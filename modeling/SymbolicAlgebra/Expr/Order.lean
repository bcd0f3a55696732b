import SymbolicAlgebra.Expr

namespace SymbolicAlgebra

def compareRanks (m n : Nat) : Ordering :=
  if m < n then .lt else if m = n then .eq else .gt

/-- The order of names: code point by code point. -/
def compareNames (s t : String) : Ordering :=
  if s < t then .lt else if s = t then .eq else .gt

/-- Lexicographic, a list before its extensions. -/
def compareNameLists : List String → List String → Ordering
  | [], [] => .eq
  | [], _ :: _ => .lt
  | _ :: _, [] => .gt
  | s :: ss, t :: ts => (compareNames s t).then (compareNameLists ss ts)

namespace Expr

/-- The place of an expression's kind in the order of expressions. -/
def rank : Expr → Nat
  | number q => if isInteger q then 0 else 1
  | symbol _ => 2
  | sum _ _ => 3
  | product _ _ => 4
  | power _ _ => 5
  | sin _ => 6
  | cos _ => 7
  | apply _ _ => 8
  | derivative _ _ => 9

mutual

/-- The order of expressions. Different kinds go by rank. Within a kind sums and products go by
their terms or factors and then by their number, all else part by part. -/
def order : Expr → Expr → Ordering
  | number p, number q => compareNumbers p q
  | symbol s, symbol t => compareNames s t
  | sum c terms, sum d terms' => (orderTerms terms terms').then (compareNumbers c d)
  | product c factors, product d factors' =>
    (orderFactors factors factors').then (compareNumbers c d)
  | power b e, power b' e' => (order b b').then (order e e')
  | sin a, sin a' => order a a'
  | cos a, cos a' => order a a'
  | apply f a, apply g a' => (compareNames f g).then (order a a')
  | derivative a xs, derivative a' ys => (order a a').then (compareNameLists xs ys)
  | a, b => compareRanks a.rank b.rank

def orderTerms : List Multiple → List Multiple → Ordering
  | [], [] => .eq
  | [], _ :: _ => .lt
  | _ :: _, [] => .gt
  | (t, q) :: rest, (t', q') :: rest' =>
    ((order t t').then (compareNumbers q q')).then (orderTerms rest rest')

def orderFactors : List Factor → List Factor → Ordering
  | [], [] => .eq
  | [], _ :: _ => .lt
  | _ :: _, [] => .gt
  | (b, e) :: rest, (b', e') :: rest' =>
    ((order b b').then (order e e')).then (orderFactors rest rest')

end

end Expr

theorem compareRanks_eq_iff {m n : Nat} : compareRanks m n = .eq ↔ m = n := by
  unfold compareRanks
  split
  · simp only [reduceCtorEq, false_iff]
    omega
  · split <;> simp_all

theorem compareValues_eq_iff {p q : Rat} : compareValues p q = .eq ↔ p = q := by
  unfold compareValues
  split
  · rename_i below
    simp only [reduceCtorEq, false_iff]
    rintro rfl
    exact Rat.lt_irrefl below
  · split <;> simp_all

theorem compareNumbers_eq_iff {p q : Rat} : compareNumbers p q = .eq ↔ p = q := by
  unfold compareNumbers
  split
  · rename_i left right
    simp only [reduceCtorEq, false_iff]
    rintro rfl
    simp_all
  · rename_i left right
    simp only [reduceCtorEq, false_iff]
    rintro rfl
    simp_all
  · exact compareValues_eq_iff

theorem compareNames_eq_iff {s t : String} : compareNames s t = .eq ↔ s = t := by
  unfold compareNames
  split
  · rename_i below
    simp only [reduceCtorEq, false_iff]
    rintro rfl
    exact String.lt_irrefl _ below
  · split <;> simp_all

theorem compareNameLists_eq_iff {xs ys : List String} :
    compareNameLists xs ys = .eq ↔ xs = ys := by
  induction xs generalizing ys with
  | nil => cases ys <;> simp [compareNameLists]
  | cons x xs ih =>
    cases ys with
    | nil => simp [compareNameLists]
    | cons y ys => simp [compareNameLists, Ordering.then_eq_eq, compareNames_eq_iff, ih]

namespace Expr

theorem orderTerms_eq_iff {terms terms' : List Multiple}
    (each : ∀ t q, (t, q) ∈ terms → ∀ u, t.order u = .eq ↔ t = u) :
    orderTerms terms terms' = .eq ↔ terms = terms' := by
  induction terms generalizing terms' with
  | nil => cases terms' <;> simp [orderTerms]
  | cons head rest ih =>
    obtain ⟨t, q⟩ := head
    have tail := fun terms' => @ih terms' fun u r member => each u r (List.mem_cons_of_mem _ member)
    cases terms' with
    | nil => simp [orderTerms]
    | cons head' rest' =>
      simp [orderTerms, Ordering.then_eq_eq, compareNumbers_eq_iff, tail, Prod.ext_iff,
        each t q (List.mem_cons_self ..)]

theorem orderFactors_eq_iff {factors factors' : List Factor}
    (each : ∀ b e, (b, e) ∈ factors →
      (∀ c, b.order c = .eq ↔ b = c) ∧ ∀ f, e.order f = .eq ↔ e = f) :
    orderFactors factors factors' = .eq ↔ factors = factors' := by
  induction factors generalizing factors' with
  | nil => cases factors' <;> simp [orderFactors]
  | cons head rest ih =>
    obtain ⟨b, e⟩ := head
    have tail := fun factors' =>
      @ih factors' fun c f member => each c f (List.mem_cons_of_mem _ member)
    have here := each b e (List.mem_cons_self ..)
    cases factors' with
    | nil => simp [orderFactors]
    | cons head' rest' =>
      simp [orderFactors, Ordering.then_eq_eq, here.1, here.2, tail, Prod.ext_iff]

/-- Only equal expressions are level in the order. -/
theorem order_eq_iff {a b : Expr} : a.order b = .eq ↔ a = b := by
  induction a using Expr.induction generalizing b with
  | number q =>
    cases b <;> simp only [order, compareNumbers_eq_iff, compareRanks_eq_iff, rank, number.injEq,
      reduceCtorEq, iff_false] <;> split <;> decide
  | symbol name =>
    cases b <;> simp [order, compareNames_eq_iff, compareRanks_eq_iff, rank]
    split <;> decide
  | sum c terms each =>
    cases b <;> simp [order, compareRanks_eq_iff, compareNumbers_eq_iff, rank,
      Ordering.then_eq_eq, orderTerms_eq_iff each, and_comm]
    split <;> decide
  | product c factors each =>
    cases b <;> simp [order, compareRanks_eq_iff, compareNumbers_eq_iff, rank,
      Ordering.then_eq_eq, orderFactors_eq_iff each, and_comm]
    split <;> decide
  | power b e base exponent =>
    cases ‹Expr› <;> simp [order, compareRanks_eq_iff, rank, Ordering.then_eq_eq, base,
      exponent]
    split <;> decide
  | sin a argument =>
    cases b <;> simp [order, compareRanks_eq_iff, rank, argument]
    split <;> decide
  | cos a argument =>
    cases b <;> simp [order, compareRanks_eq_iff, rank, argument]
    split <;> decide
  | apply name a argument =>
    cases b <;> simp [order, compareRanks_eq_iff, rank, Ordering.then_eq_eq,
      compareNames_eq_iff, argument]
    split <;> decide
  | derivative a names target =>
    cases b <;> simp [order, compareRanks_eq_iff, rank, Ordering.then_eq_eq,
      compareNameLists_eq_iff, target]
    split <;> decide

end Expr

end SymbolicAlgebra
