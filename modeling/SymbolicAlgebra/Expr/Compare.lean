import SymbolicAlgebra.Expr.Order

namespace SymbolicAlgebra

namespace Expr

theorem order_self (a : Expr) : a.order a = .eq :=
  order_eq_iff.mpr rfl

/-- The order of two expressions, found in whatever way. -/
abbrev Comparison (a b : Expr) := { o : Ordering // o = a.order b }

/-- The order of two expressions by a computation that is left out if they are one object. -/
@[inline] def unlessSame {a b : Expr} (compute : Unit → Comparison a b) : Comparison a b :=
  let found := Thunk.mk compute
  have reflexive : a = b → (found.get.1 == .eq) = true := by
    rintro rfl
    rw [found.get.2, order_self]
    rfl
  if same : withPtrEq a b (fun _ => found.get.1 == .eq) reflexive = true then
    ⟨.eq, (eq_of_beq same).symm.trans found.get.2⟩
  else found.get

mutual

/-- The order of two expressions. Nothing that both sides share is looked into where an expression
has several parts; below so many of these places the order is found in the way `deep`. -/
def comparison (deep : ∀ a b, Comparison a b) (levels : Nat) (a b : Expr) : Comparison a b :=
  match a, b with
  | sum c terms, sum d terms' => unlessSame fun _ =>
    match levels with
    | 0 => deep ..
    | levels + 1 =>
      ⟨(comparisonOfTerms deep levels terms terms').1.then (compareNumbers c d), by
        rw [(comparisonOfTerms deep levels terms terms').2, order]⟩
  | product c factors, product d factors' => unlessSame fun _ =>
    match levels with
    | 0 => deep ..
    | levels + 1 =>
      ⟨(comparisonOfFactors deep levels factors factors').1.then (compareNumbers c d), by
        rw [(comparisonOfFactors deep levels factors factors').2, order]⟩
  | power b e, power b' e' => unlessSame fun _ =>
    match levels with
    | 0 => deep ..
    | levels + 1 =>
      ⟨(comparison deep levels b b').1.then (comparison deep levels e e').1, by
        rw [(comparison deep levels b b').2, (comparison deep levels e e').2, order]⟩
  | sin a, sin a' =>
    ⟨(comparison deep levels a a').1, by rw [(comparison deep levels a a').2, order]⟩
  | cos a, cos a' =>
    ⟨(comparison deep levels a a').1, by rw [(comparison deep levels a a').2, order]⟩
  | apply f a, apply g a' =>
    ⟨(compareNames f g).then (comparison deep levels a a').1, by
      rw [(comparison deep levels a a').2, order]⟩
  | derivative a xs, derivative a' ys =>
    ⟨(comparison deep levels a a').1.then (compareNameLists xs ys), by
      rw [(comparison deep levels a a').2, order]⟩
  | a, b => ⟨a.order b, rfl⟩

def comparisonOfTerms (deep : ∀ a b, Comparison a b) (levels : Nat)
    (terms terms' : List Multiple) : { o : Ordering // o = orderTerms terms terms' } :=
  match terms, terms' with
  | [], [] => ⟨.eq, by rw [orderTerms]⟩
  | [], _ :: _ => ⟨.lt, by rw [orderTerms]⟩
  | _ :: _, [] => ⟨.gt, by rw [orderTerms]⟩
  | (t, q) :: rest, (t', q') :: rest' =>
    ⟨((comparison deep levels t t').1.then (compareNumbers q q')).then
        (comparisonOfTerms deep levels rest rest').1, by
      rw [(comparison deep levels t t').2, (comparisonOfTerms deep levels rest rest').2,
        orderTerms]⟩

def comparisonOfFactors (deep : ∀ a b, Comparison a b) (levels : Nat)
    (factors factors' : List Factor) : { o : Ordering // o = orderFactors factors factors' } :=
  match factors, factors' with
  | [], [] => ⟨.eq, by rw [orderFactors]⟩
  | [], _ :: _ => ⟨.lt, by rw [orderFactors]⟩
  | _ :: _, [] => ⟨.gt, by rw [orderFactors]⟩
  | (b, e) :: rest, (b', e') :: rest' =>
    ⟨((comparison deep levels b b').1.then (comparison deep levels e e').1).then
        (comparisonOfFactors deep levels rest rest').1, by
      rw [(comparison deep levels b b').2, (comparison deep levels e e').2,
        (comparisonOfFactors deep levels rest rest').2, orderFactors]⟩

end

/-- The order of two expressions after equal parts of them were made one object. -/
def comparisonAfterSharing (a b : Expr) : Comparison a b :=
  let shared := ShareCommon.shareCommon' (a, b)
  have same : shared = (a, b) := rfl
  let found := comparison (fun a b => ⟨a.order b, rfl⟩) 4294967296 shared.1 shared.2
  ⟨found.1, by rw [found.2, same]⟩

/-- The order of two expressions. The steps that it takes are bounded by the number of objects that
the expressions are made of, however often these are repeated in them. -/
def compare (a b : Expr) : Ordering :=
  (comparison comparisonAfterSharing 3 a b).1

theorem compare_eq_order (a b : Expr) : a.compare b = a.order b :=
  (comparison comparisonAfterSharing 3 a b).2

/-- Only equal expressions are level in the order. -/
theorem compare_eq_iff {a b : Expr} : a.compare b = .eq ↔ a = b := by
  rw [compare_eq_order, order_eq_iff]

instance : DecidableEq Expr := fun a b =>
  decidable_of_iff (a.compare b = .eq) compare_eq_iff

end Expr

end SymbolicAlgebra
