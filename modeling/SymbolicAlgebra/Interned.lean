import SymbolicAlgebra.Expr.Order

namespace SymbolicAlgebra

/-- The names met so far, each once and in the order in which they were first seen. -/
structure Interner where
  names : List String
  nodup : names.Nodup

/-- A name is referred to by its place among the names. -/
abbrev Handle := Nat

namespace Interner

def resolve? (interner : Interner) (handle : Handle) : Option String :=
  interner.names[handle]?

/-- The order of the names behind two handles. It halts on handles that were never given out. -/
def compare? (interner : Interner) (s t : Handle) : Option Ordering :=
  if s = t then some .eq
  else do return compareNames (← interner.resolve? s) (← interner.resolve? t)

end Interner

/-- An expression as it is stored: in place of names it has their handles. -/
inductive Interned where
  | number (value : Rat)
  | symbol (name : Handle)
  | sum (constant : Rat) (terms : List (Interned × Rat))
  | product (coefficient : Rat) (factors : List (Interned × Interned))
  | power (base exponent : Interned)
  | sin (argument : Interned)
  | cos (argument : Interned)
  | apply (name : Handle) (argument : Interned)
  | derivative (target : Interned) (names : List Handle)

/-- A comparison of kinds, and where these are the same that of what they have in common. -/
def kindFirst (m n : Nat) (within : Option Ordering) : Option Ordering :=
  match compareRanks m n with
  | .eq => within
  | outcome => some outcome

/-- A second comparison, which is made only if the first leaves things open. -/
def thenCompare (first second : Option Ordering) : Option Ordering :=
  match first with
  | some .eq => second
  | outcome => outcome

/-- The order of two numbers of one kind. -/
def compareAlike? (p q : Rat) : Option Ordering :=
  if isInteger p = isInteger q then some (compareValues p q) else none

def compareNumberNodes? (p q : Rat) : Option Ordering :=
  kindFirst (Expr.number p).rank (Expr.number q).rank (compareAlike? p q)

def compareHandleLists? (interner : Interner) : List Handle → List Handle → Option Ordering
  | [], [] => some .eq
  | [], _ :: _ => some .lt
  | _ :: _, [] => some .gt
  | s :: ss, t :: ts => thenCompare (interner.compare? s t) (compareHandleLists? interner ss ts)

namespace Interned

def rank : Interned → Nat
  | number q => (Expr.number q).rank
  | symbol _ => 2
  | sum _ _ => 3
  | product _ _ => 4
  | power _ _ => 5
  | sin _ => 6
  | cos _ => 7
  | apply _ _ => 8
  | derivative _ _ => 9

mutual

/-- The order of two expressions known to be of one kind. It halts if they are not. -/
def compareWithin? (interner : Interner) : Interned → Interned → Option Ordering
  | number p, number q => compareAlike? p q
  | symbol s, symbol t => interner.compare? s t
  | sum c terms, sum d terms' =>
    thenCompare (compareTerms? interner terms terms') (compareNumberNodes? c d)
  | product c factors, product d factors' =>
    thenCompare (compareFactors? interner factors factors') (compareNumberNodes? c d)
  | power b e, power b' e' =>
    thenCompare (kindFirst b.rank b'.rank (compareWithin? interner b b'))
      (kindFirst e.rank e'.rank (compareWithin? interner e e'))
  | sin a, sin a' => kindFirst a.rank a'.rank (compareWithin? interner a a')
  | cos a, cos a' => kindFirst a.rank a'.rank (compareWithin? interner a a')
  | apply f a, apply g a' =>
    thenCompare (interner.compare? f g) (kindFirst a.rank a'.rank (compareWithin? interner a a'))
  | derivative a xs, derivative a' ys =>
    thenCompare (kindFirst a.rank a'.rank (compareWithin? interner a a'))
      (compareHandleLists? interner xs ys)
  | _, _ => none

def compareTerms? (interner : Interner) :
    List (Interned × Rat) → List (Interned × Rat) → Option Ordering
  | [], [] => some .eq
  | [], _ :: _ => some .lt
  | _ :: _, [] => some .gt
  | (t, q) :: rest, (t', q') :: rest' =>
    thenCompare
      (thenCompare (kindFirst t.rank t'.rank (compareWithin? interner t t'))
        (compareNumberNodes? q q'))
      (compareTerms? interner rest rest')

def compareFactors? (interner : Interner) :
    List (Interned × Interned) → List (Interned × Interned) → Option Ordering
  | [], [] => some .eq
  | [], _ :: _ => some .lt
  | _ :: _, [] => some .gt
  | (b, e) :: rest, (b', e') :: rest' =>
    thenCompare
      (thenCompare (kindFirst b.rank b'.rank (compareWithin? interner b b'))
        (kindFirst e.rank e'.rank (compareWithin? interner e e')))
      (compareFactors? interner rest rest')

end

/-- The order of two stored expressions: that of their kinds, and within a kind by contents. -/
def compare? (interner : Interner) (a b : Interned) : Option Ordering :=
  kindFirst a.rank b.rank (compareWithin? interner a b)

mutual

/-- The expression with names for handles, if all of them were given out. -/
def resolve? (interner : Interner) : Interned → Option Expr
  | number q => some (.number q)
  | symbol s => do return .symbol (← interner.resolve? s)
  | sum c terms => do return .sum c (← resolveTerms? interner terms)
  | product c factors => do return .product c (← resolveFactors? interner factors)
  | power b e => do return .power (← resolve? interner b) (← resolve? interner e)
  | sin a => do return .sin (← resolve? interner a)
  | cos a => do return .cos (← resolve? interner a)
  | apply f a => do return .apply (← interner.resolve? f) (← resolve? interner a)
  | derivative a xs => do return .derivative (← resolve? interner a) (← xs.mapM interner.resolve?)

def resolveTerms? (interner : Interner) : List (Interned × Rat) → Option (List Multiple)
  | [] => some []
  | (t, q) :: rest => do return (← resolve? interner t, q) :: (← resolveTerms? interner rest)

def resolveFactors? (interner : Interner) : List (Interned × Interned) → Option (List Factor)
  | [] => some []
  | (b, e) :: rest => do
    return (← resolve? interner b, ← resolve? interner e) :: (← resolveFactors? interner rest)

end

end Interned

end SymbolicAlgebra
