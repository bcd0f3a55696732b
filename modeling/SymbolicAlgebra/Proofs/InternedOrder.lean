import SymbolicAlgebra.Interned
import SymbolicAlgebra.Proofs.Order

namespace SymbolicAlgebra

theorem thenCompare_some (o p : Ordering) : thenCompare (some o) (some p) = some (o.then p) := by
  cases o <;> rfl

namespace Interner

theorem resolve?_injective {interner : Interner} {s t : Handle} {name : String}
    (first : interner.resolve? s = some name) (second : interner.resolve? t = some name) :
    s = t := by
  obtain ⟨bound, _⟩ := List.getElem?_eq_some_iff.mp first
  exact (List.getElem?_inj bound interner.nodup).mp (first.trans second.symm)

theorem compare?_eq {interner : Interner} {s t : Handle} {x y : String}
    (first : interner.resolve? s = some x) (second : interner.resolve? t = some y) :
    interner.compare? s t = some (compareNames x y) := by
  unfold compare?
  split
  · subst t
    cases Option.some.inj (first.symm.trans second)
    rw [compareNames_eq_iff.mpr rfl]
  · simp [first, second]

end Interner

/-- Handles stand side by side with the names that they were given out for. -/
def StandForNames (interner : Interner) : List Handle → List String → Prop :=
  List.Forall₂ fun s x => interner.resolve? s = some x

theorem names_of_resolve? {interner : Interner} {ss : List Handle} {xs : List String}
    (known : ss.mapM interner.resolve? = some xs) : StandForNames interner ss xs := by
  induction ss generalizing xs with
  | nil =>
    cases known
    exact .nil
  | cons s ss ih =>
    simp only [List.mapM_cons, Option.bind_eq_bind, Option.bind_eq_some_iff, Option.pure_def,
      Option.some.injEq] at known
    obtain ⟨x, atS, xs, atSs, rfl⟩ := known
    exact .cons atS (ih atSs)

theorem compareHandleLists?_eq {interner : Interner} {ss ts : List Handle} {xs ys : List String}
    (first : StandForNames interner ss xs) (second : StandForNames interner ts ys) :
    compareHandleLists? interner ss ts = some (compareNameLists xs ys) := by
  induction first generalizing ts ys with
  | nil => cases second <;> rfl
  | cons atS atSs ih =>
    cases second with
    | nil => rfl
    | cons atT atTs =>
      rw [compareHandleLists?, Interner.compare?_eq atS atT, ih atTs, thenCompare_some,
        compareNameLists]

theorem handles_eq_of_resolve? {interner : Interner} {ss ts : List Handle} {xs : List String}
    (first : StandForNames interner ss xs) (second : StandForNames interner ts xs) : ss = ts := by
  induction first generalizing ts with
  | nil =>
    cases second
    rfl
  | cons atS atSs ih =>
    cases second with
    | cons atT atTs => rw [Interner.resolve?_injective atS atT, ih atTs]

theorem compareAlike?_eq {p q : Rat} (same : (Expr.number p).rank = (Expr.number q).rank) :
    compareAlike? p q = some (compareNumbers p q) := by
  have alike : isInteger p = isInteger q := by
    simp only [Expr.rank] at same
    cases left : isInteger p <;> cases right : isInteger q <;> simp_all
  rw [compareAlike?, if_pos alike, compareNumbers_eq_then, compareRanks_eq_iff.mpr same,
    Ordering.eq_then]

/-- Once the kinds are compared, only expressions of one kind are left. -/
theorem kindFirst_eq {x y : Expr} {within : Option Ordering}
    (same : x.rank = y.rank → within = some (x.order y)) :
    kindFirst x.rank y.rank within = some (x.order y) := by
  unfold kindFirst
  split
  · rename_i outcome
    exact same (compareRanks_eq_iff.mp outcome)
  · rename_i outcome
    rw [Expr.order_of_rank_ne fun equal => outcome (compareRanks_eq_iff.mpr equal)]

theorem compareNumberNodes?_eq (p q : Rat) :
    compareNumberNodes? p q = some (compareNumbers p q) :=
  kindFirst_eq (x := .number p) (y := .number q) compareAlike?_eq

namespace Interned

/-- Terms and multiplicities stand side by side with stored ones. -/
def StandForTerms (interner : Interner) : List (Interned × Rat) → List Multiple → Prop :=
  List.Forall₂ fun t x => t.1.resolve? interner = some x.1 ∧ t.2 = x.2

/-- Bases and exponents stand side by side with stored ones. -/
def StandForFactors (interner : Interner) : List (Interned × Interned) → List Factor → Prop :=
  List.Forall₂ fun f x => f.1.resolve? interner = some x.1 ∧ f.2.resolve? interner = some x.2

theorem terms_of_resolve? {interner : Interner} {ts : List (Interned × Rat)} {terms : List Multiple}
    (known : resolveTerms? interner ts = some terms) : StandForTerms interner ts terms := by
  induction ts generalizing terms with
  | nil =>
    cases known
    exact .nil
  | cons head rest ih =>
    simp only [resolveTerms?, Option.bind_eq_bind, Option.bind_eq_some_iff, Option.pure_def,
      Option.some.injEq] at known
    obtain ⟨x, atHead, terms, atRest, rfl⟩ := known
    exact .cons ⟨atHead, rfl⟩ (ih atRest)

theorem factors_of_resolve? {interner : Interner} {fs : List (Interned × Interned)}
    {factors : List Factor} (known : resolveFactors? interner fs = some factors) :
    StandForFactors interner fs factors := by
  induction fs generalizing factors with
  | nil =>
    cases known
    exact .nil
  | cons head rest ih =>
    simp only [resolveFactors?, Option.bind_eq_bind, Option.bind_eq_some_iff, Option.pure_def,
      Option.some.injEq] at known
    obtain ⟨x, atBase, z, atExponent, factors, atRest, rfl⟩ := known
    exact .cons ⟨atBase, atExponent⟩ (ih atRest)

/-- An expression stands for those of its kind that its parts stand for. -/
inductive StandsFor (interner : Interner) : Interned → Expr → Prop where
  | number {q} : StandsFor interner (number q) (.number q)
  | symbol {s x} (name : interner.resolve? s = some x) : StandsFor interner (symbol s) (.symbol x)
  | sum {c ts terms} (stored : StandForTerms interner ts terms) :
      StandsFor interner (sum c ts) (.sum c terms)
  | product {c fs factors} (stored : StandForFactors interner fs factors) :
      StandsFor interner (product c fs) (.product c factors)
  | power {b e x z} (base : b.resolve? interner = some x)
      (exponent : e.resolve? interner = some z) : StandsFor interner (power b e) (.power x z)
  | sin {a x} (argument : a.resolve? interner = some x) : StandsFor interner (sin a) (.sin x)
  | cos {a x} (argument : a.resolve? interner = some x) : StandsFor interner (cos a) (.cos x)
  | apply {f name a x} (function : interner.resolve? f = some name)
      (argument : a.resolve? interner = some x) : StandsFor interner (apply f a) (.apply name x)
  | derivative {a x ss names} (target : a.resolve? interner = some x)
      (stored : StandForNames interner ss names) :
      StandsFor interner (derivative a ss) (.derivative x names)

theorem standsFor_of_resolve? {interner : Interner} {a : Interned} {x : Expr}
    (known : a.resolve? interner = some x) : StandsFor interner a x := by
  cases a <;>
    simp only [resolve?, Option.bind_eq_bind, Option.bind_eq_some_iff, Option.pure_def,
      Option.some.injEq] at known
  case number =>
    subst known
    exact .number
  case symbol =>
    obtain ⟨_, name, rfl⟩ := known
    exact .symbol name
  case sum =>
    obtain ⟨_, stored, rfl⟩ := known
    exact .sum (terms_of_resolve? stored)
  case product =>
    obtain ⟨_, stored, rfl⟩ := known
    exact .product (factors_of_resolve? stored)
  case power =>
    obtain ⟨_, base, _, exponent, rfl⟩ := known
    exact .power base exponent
  case sin =>
    obtain ⟨_, argument, rfl⟩ := known
    exact .sin argument
  case cos =>
    obtain ⟨_, argument, rfl⟩ := known
    exact .cos argument
  case apply =>
    obtain ⟨_, function, _, argument, rfl⟩ := known
    exact .apply function argument
  case derivative =>
    obtain ⟨_, target, _, names, rfl⟩ := known
    exact .derivative target (names_of_resolve? names)

theorem rank_eq_of_resolve? {interner : Interner} {a : Interned} {x : Expr}
    (known : a.resolve? interner = some x) : a.rank = x.rank := by
  cases standsFor_of_resolve? known <;> rfl

theorem compareTerms?_eq {interner : Interner} {ts us : List (Interned × Rat)}
    {terms terms' : List Multiple}
    (each : ∀ t q, (t, q) ∈ terms → ∀ {a b : Interned} {y : Expr}, a.resolve? interner = some t →
      b.resolve? interner = some y → a.compare? interner b = some (t.order y))
    (first : StandForTerms interner ts terms) (second : StandForTerms interner us terms') :
    compareTerms? interner ts us = some (Expr.orderTerms terms terms') := by
  induction first generalizing us terms' with
  | nil => cases second <;> rfl
  | cons atT atTs ih =>
    cases second with
    | nil => rfl
    | cons atU atUs =>
      have here := each _ _ (List.mem_cons_self ..) atT.1 atU.1
      have tail := ih (fun t q member => each t q (List.mem_cons_of_mem _ member)) atUs
      simp only [compare?] at here
      rw [compareTerms?, here, compareNumberNodes?_eq, tail, thenCompare_some, thenCompare_some,
        Expr.orderTerms, atT.2, atU.2]

theorem compareFactors?_eq {interner : Interner} {fs gs : List (Interned × Interned)}
    {factors factors' : List Factor}
    (each : ∀ t e, (t, e) ∈ factors →
      (∀ {a b : Interned} {y : Expr}, a.resolve? interner = some t →
        b.resolve? interner = some y → a.compare? interner b = some (t.order y)) ∧
      ∀ {a b : Interned} {y : Expr}, a.resolve? interner = some e →
        b.resolve? interner = some y → a.compare? interner b = some (e.order y))
    (first : StandForFactors interner fs factors) (second : StandForFactors interner gs factors') :
    compareFactors? interner fs gs = some (Expr.orderFactors factors factors') := by
  induction first generalizing gs factors' with
  | nil => cases second <;> rfl
  | cons atF atFs ih =>
    cases second with
    | nil => rfl
    | cons atG atGs =>
      have here := each _ _ (List.mem_cons_self ..)
      have bases := here.1 atF.1 atG.1
      have exponents := here.2 atF.2 atG.2
      have tail := ih (fun t e member => each t e (List.mem_cons_of_mem _ member)) atGs
      simp only [compare?] at bases exponents
      rw [compareFactors?, bases, exponents, tail, thenCompare_some, thenCompare_some,
        Expr.orderFactors]

theorem terms_eq_of_resolve? {interner : Interner} {ts us : List (Interned × Rat)}
    {terms : List Multiple}
    (each : ∀ t q, (t, q) ∈ terms → ∀ {a b : Interned}, a.resolve? interner = some t →
      b.resolve? interner = some t → a = b)
    (first : StandForTerms interner ts terms) (second : StandForTerms interner us terms) :
    ts = us := by
  induction first generalizing us with
  | nil =>
    cases second
    rfl
  | cons atT atTs ih =>
    cases second with
    | cons atU atUs =>
      have here := each _ _ (List.mem_cons_self ..) atT.1 atU.1
      have tail := ih (fun t q member => each t q (List.mem_cons_of_mem _ member)) atUs
      rw [Prod.ext here (atT.2.trans atU.2.symm), tail]

theorem factors_eq_of_resolve? {interner : Interner} {fs gs : List (Interned × Interned)}
    {factors : List Factor}
    (each : ∀ t e, (t, e) ∈ factors →
      (∀ {a b : Interned}, a.resolve? interner = some t → b.resolve? interner = some t → a = b) ∧
      ∀ {a b : Interned}, a.resolve? interner = some e → b.resolve? interner = some e → a = b)
    (first : StandForFactors interner fs factors) (second : StandForFactors interner gs factors) :
    fs = gs := by
  induction first generalizing gs with
  | nil =>
    cases second
    rfl
  | cons atF atFs ih =>
    cases second with
    | cons atG atGs =>
      have here := each _ _ (List.mem_cons_self ..)
      have tail := ih (fun t e member => each t e (List.mem_cons_of_mem _ member)) atGs
      rw [Prod.ext (here.1 atF.1 atG.1) (here.2 atF.2 atG.2), tail]

/-- Only expressions of one kind are looked into. -/
theorem compare?_of_within {interner : Interner} {a b : Interned} {x y : Expr}
    (first : a.resolve? interner = some x) (second : b.resolve? interner = some y)
    (within : x.rank = y.rank → x.SameKind y → a.compareWithin? interner b = some (x.order y)) :
    a.compare? interner b = some (x.order y) := by
  rw [compare?, rank_eq_of_resolve? first, rank_eq_of_resolve? second]
  exact kindFirst_eq fun same => within same (Expr.sameKind_of_rank_eq same)

/-- Stored expressions compare as the expressions that they stand for. In particular the comparison
never halts, and the places of names among the names do not count. -/
theorem compare?_eq {interner : Interner} {a b : Interned} {x y : Expr}
    (first : a.resolve? interner = some x) (second : b.resolve? interner = some y) :
    a.compare? interner b = some (x.order y) := by
  induction x using Expr.induction generalizing a b y with
  | number p =>
    refine compare?_of_within first second fun ranks same => ?_
    cases same
    cases standsFor_of_resolve? first
    cases standsFor_of_resolve? second
    exact compareAlike?_eq ranks
  | symbol s =>
    refine compare?_of_within first second fun _ same => ?_
    cases same
    cases standsFor_of_resolve? first with
    | symbol name =>
      cases standsFor_of_resolve? second with
      | symbol name' => rw [compareWithin?, Interner.compare?_eq name name', Expr.order]
  | sum c terms each =>
    refine compare?_of_within first second fun _ same => ?_
    cases same
    cases standsFor_of_resolve? first with
    | sum stored =>
      cases standsFor_of_resolve? second with
      | sum stored' =>
        have parts := compareTerms?_eq each stored stored'
        rw [compareWithin?, parts, compareNumberNodes?_eq, thenCompare_some, Expr.order]
  | product c factors each =>
    refine compare?_of_within first second fun _ same => ?_
    cases same
    cases standsFor_of_resolve? first with
    | product stored =>
      cases standsFor_of_resolve? second with
      | product stored' =>
        have parts := compareFactors?_eq each stored stored'
        rw [compareWithin?, parts, compareNumberNodes?_eq, thenCompare_some, Expr.order]
  | power x z base exponent =>
    refine compare?_of_within first second fun _ same => ?_
    cases same
    cases standsFor_of_resolve? first with
    | power atBase atExponent =>
      cases standsFor_of_resolve? second with
      | power atBase' atExponent' =>
        have bases := base atBase atBase'
        have exponents := exponent atExponent atExponent'
        simp only [compare?] at bases exponents
        rw [compareWithin?, bases, exponents, thenCompare_some, Expr.order]
  | sin x argument =>
    refine compare?_of_within first second fun _ same => ?_
    cases same
    cases standsFor_of_resolve? first with
    | sin inside =>
      cases standsFor_of_resolve? second with
      | sin inside' => exact argument inside inside'
  | cos x argument =>
    refine compare?_of_within first second fun _ same => ?_
    cases same
    cases standsFor_of_resolve? first with
    | cos inside =>
      cases standsFor_of_resolve? second with
      | cos inside' => exact argument inside inside'
  | apply name x argument =>
    refine compare?_of_within first second fun _ same => ?_
    cases same
    cases standsFor_of_resolve? first with
    | apply function inside =>
      cases standsFor_of_resolve? second with
      | apply function' inside' =>
        have arguments := argument inside inside'
        simp only [compare?] at arguments
        rw [compareWithin?, Interner.compare?_eq function function', arguments, thenCompare_some,
          Expr.order]
  | derivative x names target =>
    refine compare?_of_within first second fun _ same => ?_
    cases same
    cases standsFor_of_resolve? first with
    | derivative inside stored =>
      cases standsFor_of_resolve? second with
      | derivative inside' stored' =>
        have targets := target inside inside'
        have lists := compareHandleLists?_eq stored stored'
        simp only [compare?] at targets
        rw [compareWithin?, targets, lists, thenCompare_some, Expr.order]

/-- An expression is stored in one way only. -/
theorem eq_of_resolve? {interner : Interner} {a b : Interned} {x : Expr}
    (first : a.resolve? interner = some x) (second : b.resolve? interner = some x) : a = b := by
  induction x using Expr.induction generalizing a b with
  | number q =>
    cases standsFor_of_resolve? first
    cases standsFor_of_resolve? second
    rfl
  | symbol s =>
    cases standsFor_of_resolve? first with
    | symbol name =>
      cases standsFor_of_resolve? second with
      | symbol name' => rw [Interner.resolve?_injective name name']
  | sum c terms each =>
    cases standsFor_of_resolve? first with
    | sum stored =>
      cases standsFor_of_resolve? second with
      | sum stored' => rw [terms_eq_of_resolve? each stored stored']
  | product c factors each =>
    cases standsFor_of_resolve? first with
    | product stored =>
      cases standsFor_of_resolve? second with
      | product stored' => rw [factors_eq_of_resolve? each stored stored']
  | power x z base exponent =>
    cases standsFor_of_resolve? first with
    | power atBase atExponent =>
      cases standsFor_of_resolve? second with
      | power atBase' atExponent' =>
        rw [base atBase atBase', exponent atExponent atExponent']
  | sin x argument =>
    cases standsFor_of_resolve? first with
    | sin inside =>
      cases standsFor_of_resolve? second with
      | sin inside' => rw [argument inside inside']
  | cos x argument =>
    cases standsFor_of_resolve? first with
    | cos inside =>
      cases standsFor_of_resolve? second with
      | cos inside' => rw [argument inside inside']
  | apply name x argument =>
    cases standsFor_of_resolve? first with
    | apply function inside =>
      cases standsFor_of_resolve? second with
      | apply function' inside' =>
        rw [Interner.resolve?_injective function function', argument inside inside']
  | derivative x names target =>
    cases standsFor_of_resolve? first with
    | derivative inside stored =>
      cases standsFor_of_resolve? second with
      | derivative inside' stored' =>
        rw [handles_eq_of_resolve? stored stored', target inside inside']

end Interned

/-- The order of expressions is a strict total order in which only equal expressions are level. The
comparison of stored expressions never halts on a mismatch of kinds, and it has the same outcome
in whatever order the names were first seen. -/
theorem Expr.compare_totalOrder (a b c : Expr) :
    b.compare a = (a.compare b).swap ∧
      (a.compare b ≠ .gt → b.compare c ≠ .gt → a.compare c ≠ .gt) ∧
      (a.compare b = .eq ↔ a = b) ∧
      ∀ (interner : Interner) (x y : Interned), x.resolve? interner = some a →
        y.resolve? interner = some b →
          x.compare? interner y = some (a.compare b) ∧ (x = y ↔ a = b) := by
  refine ⟨Std.OrientedCmp.eq_swap, ?_, compare_eq_iff, fun interner x y atX atY => ⟨?_, ?_, ?_⟩⟩
  · simp only [compare_eq_order]
    exact (order_composes a b c).ne_gt
  · rw [compare_eq_order]
    exact Interned.compare?_eq atX atY
  · rintro rfl
    exact Option.some.inj (atX.symm.trans atY)
  · rintro rfl
    exact Interned.eq_of_resolve? atX atY

/-- A name that was seen later may well come first. -/
theorem compare_totalOrder_late_name :
    (Interned.symbol 1).compare? ⟨["y", "x"], by decide⟩ (.symbol 0) = some .lt ∧
      (Interned.symbol 1 = .symbol 0 ↔ Expr.symbol "x" = .symbol "y") := by
  obtain ⟨_, _, _, stored⟩ := Expr.compare_totalOrder (.symbol "x") (.symbol "y") (.symbol "y")
  have agrees := stored ⟨["y", "x"], by decide⟩ (.symbol 1) (.symbol 0) rfl rfl
  have before : (Expr.symbol "x").compare (.symbol "y") = .lt := by
    rw [Expr.compare_eq_order]
    decide
  rw [before] at agrees
  exact agrees

end SymbolicAlgebra
