import SymbolicAlgebra.Proofs.Grouping
import SymbolicAlgebra.Proofs.FactorRuns
import SymbolicAlgebra.Proofs.Occurrences
import SymbolicAlgebra.Proofs.Words

namespace SymbolicAlgebra

open SymbolicAlgebra.Expr

section Named

variable {symbols functions : String → Prop}

theorem named_termPart {e t : Expr} {q : Rat} (named : e.Named symbols functions)
    (stored : (t, q) ∈ e.termPart) : t.Named symbols functions := by
  cases named with
  | number r => cases stored
  | sum each => exact each t q stored
  | product bases exponents =>
    cases List.mem_singleton.mp stored
    exact named_withCoefficient bases exponents 1
  | _ =>
    cases List.mem_singleton.mp stored
    constructor <;> assumption

/-- A sum is made of terms of its summands. -/
theorem named_sumOf {summands : List Expr} (named : ∀ e ∈ summands, e.Named symbols functions) :
    (sumOf summands).Named symbols functions := by
  have terms : ∀ t q, (t, q) ∈ (LinearForm.ofSummands summands).terms →
      t.Named symbols functions := by
    intro t q member
    obtain ⟨r, collected⟩ := mem_of_mem_collectTerms member
    obtain ⟨e, summand, part⟩ := List.mem_flatMap.mp collected
    exact named_termPart (named e summand) part
  unfold sumOf LinearForm.toExpr
  split
  · exact .number _
  · rename_i t q lone
    have term := terms t q (lone ▸ List.mem_singleton_self _)
    split
    · exact named_scale term q
    · exact .sum fun u r stored => terms u r (lone ▸ stored)
  · exact .sum terms

theorem named_iff_factorPart {e : Expr} : e.Named symbols functions ↔
    ∀ factor ∈ e.factorPart, factor.1.Named symbols functions ∧
      factor.2.Named symbols functions := by
  have bare (part : e.factorPart = [(e, number 1)]) : e.Named symbols functions ↔
      ∀ factor ∈ e.factorPart, factor.1.Named symbols functions ∧
        factor.2.Named symbols functions := by
    rw [part, List.forall_mem_singleton]
    exact ⟨fun named => ⟨named, .number 1⟩, And.left⟩
  cases e with
  | number q => exact iff_of_true (.number q) (List.forall_mem_nil _)
  | product q factors =>
    constructor
    · rintro (_ | _ | _ | ⟨bases, exponents⟩) ⟨b, x⟩ stored
      exact ⟨bases b x stored, exponents b x stored⟩
    · intro every
      exact .product (fun b x stored => (every (b, x) stored).1)
        fun b x stored => (every (b, x) stored).2
  | power b x =>
    constructor
    · rintro (_ | _ | _ | _ | ⟨base, exponent⟩)
      exact List.forall_mem_singleton.mpr ⟨base, exponent⟩
    · intro every
      obtain ⟨base, exponent⟩ := List.forall_mem_singleton.mp every
      exact .power base exponent
  | _ => exact bare rfl

theorem named_parts {e : Expr} (named : e.Named symbols functions) :
    ∀ part ∈ e.parts, part.Named symbols functions := by
  intro part member
  cases named with
  | number q => cases member
  | symbol allowed => cases member
  | sum each =>
    rcases List.mem_append.mp member with member | member
    · obtain ⟨⟨t, q⟩, stored, rfl⟩ := List.mem_map.mp member
      exact each t q stored
    · cases List.mem_singleton.mp member
      exact .number _
  | product bases exponents =>
    rcases List.mem_append.mp member with member | member
    · obtain ⟨⟨b, x⟩, stored, either⟩ := List.mem_flatMap.mp member
      rcases List.mem_pair.mp either with rfl | rfl
      · exact bases _ x stored
      · exact exponents b _ stored
    · cases List.mem_singleton.mp member
      exact .number _
  | power base exponent =>
    rcases List.mem_pair.mp member with rfl | rfl
    · exact base
    · exact exponent
  | sin argument | cos argument | apply allowed argument | derivative allowed argument =>
    cases List.mem_singleton.mp member
    exact argument

/-- Names are handed on through the merging of exponents and through every restart. -/
theorem factorLaws_named : FactorLaws fun factor =>
    factor.1.Named symbols functions ∧ factor.2.Named symbols functions where
  merge _ _ _ _ _ first second :=
    ⟨first.1, named_sumOf (by simp [first.2, second.2])⟩
  inside _ factor c f member := by
    obtain ⟨base, exponent⟩ := named_iff_factorPart.mp factor.1 (c, f) member
    exact ⟨base, named_scale exponent _⟩
  multiple _ factor := ⟨named_scale factor.1 _, factor.2⟩

theorem named_absolute {e : Expr} (named : e.Named symbols functions) (abs : functions "abs") :
    (absolute e).Named symbols functions := by
  have term {t : Expr} (inner : t.Named symbols functions) :
      (absoluteTerm t).Named symbols functions := by
    unfold absoluteTerm
    split
    · split
      · exact inner
      · exact .apply abs inner
    · exact .apply abs inner
  unfold absolute
  split
  · exact .number _
  · split
    · exact term named
    · cases named with
      | product bases exponents =>
        exact named_scale (term (named_withCoefficient bases exponents 1)) _
  · exact term named

/-- Whatever the algebra makes of canonical expressions with names of some sort has names of that
sort. -/
theorem closedClass_named : ClosedClass fun e => e.Canonical ∧ e.Named symbols functions where
  number q := ⟨canonical_number q, .number q⟩
  multiple q member := ⟨member.1.scale q, named_scale member.2 q⟩
  sum members := ⟨canonical_sumOf fun e inside => (members e inside).1,
    named_sumOf fun e inside => (members e inside).2⟩
  product {operands r} found members := by
    have canonical := fun e inside => (members e inside).1
    have factors : ∀ factor ∈ operands.flatMap factorPart,
        factor.1.Named symbols functions ∧ factor.2.Named symbols functions :=
      List.forall_mem_flatMap.mpr fun e inside => named_iff_factorPart.mp (members e inside).2
    exact ⟨canonical_productOf found canonical, named_iff_factorPart.mpr
      ((productOf_eq_ok_iff.mp found).everyFactor factorLaws_named canonical factors)⟩
  power found base exponent := ⟨canonical_powerOf found base.1 exponent.1, named_iff_factorPart.mpr
    ((powerOf_eq_ok_iff.mp found).everyFactor factorLaws_named base.1 exponent.1
      ⟨base.2, exponent.2⟩)⟩
  sine {a} argument := by
    refine ⟨canonical_sineOf argument.1, ?_⟩
    unfold sineOf
    split
    · exact .number 0
    · exact .sin argument.2
  cosine {a} argument := by
    refine ⟨canonical_cosineOf argument.1, ?_⟩
    unfold cosineOf
    split
    · exact .number 1
    · exact .cos argument.2
  application whole argument := by
    obtain ⟨_, _ | _ | _ | _ | _ | _ | _ | allowed⟩ := whole
    exact ⟨.apply argument.1, .apply allowed argument.2⟩
  derivative form names target := by
    refine ⟨.derivative form target.1, .derivative (fun name listed => ?_) target.2⟩
    obtain ⟨_, _ | allowed⟩ := names name listed
    exact allowed
  listed whole := by
    obtain ⟨canonical, named⟩ := whole
    cases canonical with
    | derivative form target =>
      cases named with
      | derivative allowed _ =>
        exact ⟨form, fun name inside => ⟨.symbol name, .symbol (allowed name inside)⟩⟩
  part member part inside :=
    ⟨canonical_parts member.1 part inside, named_parts member.2 part inside⟩
  operand member operand inside :=
    ⟨canonical_operands member.1 operand inside, named_operands member.2 operand inside⟩

end Named

/-- The symbols of an expression are of some sort if all that stand in it are. -/
theorem named_iff_occurs {symbols : String → Prop} {e : Expr} :
    e.Named symbols (fun _ => True) ↔ ∀ name, e.Occurs name → symbols name := by
  induction e using Expr.induction with
  | number q => exact iff_of_true (.number q) fun name inside => absurd inside (not_occurs_number q)
  | symbol name =>
    simp only [occurs_symbol_iff, forall_eq]
    refine ⟨?_, .symbol⟩
    rintro (_ | allowed)
    exact allowed
  | sum constant terms ih =>
    constructor
    · rintro (_ | _ | each) name inside
      obtain ⟨t, q, stored, inner⟩ := occurs_sum_iff.mp inside
      exact (ih t q stored).mp (each t q stored) name inner
    · intro every
      refine .sum fun t q stored => (ih t q stored).mpr fun name inner => ?_
      exact every name (occurs_sum_iff.mpr ⟨t, q, stored, inner⟩)
  | product q factors ih =>
    constructor
    · rintro (_ | _ | _ | ⟨bases, exponents⟩) name inside
      obtain ⟨b, e, stored, inner | inner⟩ := occurs_product_iff.mp inside
      · exact (ih b e stored).1.mp (bases b e stored) name inner
      · exact (ih b e stored).2.mp (exponents b e stored) name inner
    · intro every
      refine .product (fun b e stored => (ih b e stored).1.mpr fun name inner => ?_)
        fun b e stored => (ih b e stored).2.mpr fun name inner => ?_
      · exact every name (occurs_product_iff.mpr ⟨b, e, stored, .inl inner⟩)
      · exact every name (occurs_product_iff.mpr ⟨b, e, stored, .inr inner⟩)
  | power b e base exponent =>
    constructor
    · rintro (_ | _ | _ | _ | ⟨left, right⟩) name inside
      rcases occurs_power_iff.mp inside with inner | inner
      · exact base.mp left name inner
      · exact exponent.mp right name inner
    · intro every
      exact .power (base.mpr fun name inner => every name (occurs_power_iff.mpr (.inl inner)))
        (exponent.mpr fun name inner => every name (occurs_power_iff.mpr (.inr inner)))
  | sin a argument =>
    simp only [occurs_sin_iff, ← argument]
    exact ⟨fun | .sin inner => inner, .sin⟩
  | cos a argument =>
    simp only [occurs_cos_iff, ← argument]
    exact ⟨fun | .cos inner => inner, .cos⟩
  | apply function a argument =>
    simp only [occurs_apply_iff, ← argument]
    exact ⟨fun | .apply _ inner => inner, .apply trivial⟩
  | derivative a names target =>
    simp only [occurs_derivative_iff, or_imp, forall_and, ← target]
    exact ⟨fun | .derivative allowed inner => ⟨allowed, inner⟩,
      fun both => .derivative both.1 both.2⟩

/-- Every symbol in an expression is one of some source. -/
def Expr.SymbolsFrom (r : Expr) (sources : Set Expr) : Prop :=
  ∀ name ∈ r.freeSymbols, ∃ source ∈ sources, name ∈ source.freeSymbols

/-- The canonical expressions whose symbols come from some sources. -/
def MadeFrom (sources : Set Expr) (e : Expr) : Prop :=
  e.Canonical ∧ e.Named (fun name => ∃ source ∈ sources, name ∈ source.freeSymbols) fun _ => True

section Sources

variable {sources : Set Expr}

theorem closedClass_madeFrom : ClosedClass (MadeFrom sources) :=
  closedClass_named

theorem madeFrom_iff {e : Expr} :
    MadeFrom sources e ↔ e.Canonical ∧ e.SymbolsFrom sources := by
  refine and_congr_right fun canonical => named_iff_occurs.trans ?_
  simp only [SymbolsFrom, mem_freeSymbols_iff_occurs canonical]

theorem madeFrom_of_mem {e : Expr} (canonical : e.Canonical) (member : e ∈ sources) :
    MadeFrom sources e :=
  madeFrom_iff.mpr ⟨canonical, fun _ inside => ⟨e, member, inside⟩⟩

theorem MadeFrom.symbolsFrom {e : Expr} (made : MadeFrom sources e) : e.SymbolsFrom sources :=
  (madeFrom_iff.mp made).2

end Sources

theorem symbolsFrom_sumOf {operands : List Expr} (canonical : ∀ o ∈ operands, o.Canonical) :
    (sumOf operands).SymbolsFrom {o | o ∈ operands} :=
  (closedClass_madeFrom.sum fun o listed => madeFrom_of_mem (canonical o listed) listed).symbolsFrom

theorem symbolsFrom_productOf {operands : List Expr} {r : Expr}
    (found : (productOf operands : Except Error Expr) = .ok r)
    (canonical : ∀ o ∈ operands, o.Canonical) : r.SymbolsFrom {o | o ∈ operands} :=
  (closedClass_madeFrom.product found fun o listed =>
    madeFrom_of_mem (canonical o listed) listed).symbolsFrom

theorem symbolsFrom_powerOf {b e r : Expr} (found : (powerOf b e : Except Error Expr) = .ok r)
    (base : b.Canonical) (exponent : e.Canonical) : r.SymbolsFrom {b, e} :=
  (closedClass_madeFrom.power found (madeFrom_of_mem base (by simp))
    (madeFrom_of_mem exponent (by simp))).symbolsFrom

theorem symbolsFrom_absolute {e : Expr} (canonical : e.Canonical) :
    (absolute e).SymbolsFrom {e} := by
  obtain ⟨_, named⟩ := madeFrom_of_mem canonical (Set.mem_singleton e)
  exact (madeFrom_iff.mp ⟨canonical_absolute canonical, named_absolute named trivial⟩).2

theorem symbolsFrom_expand {e r : Expr} (found : (expand e : Except Error Expr) = .ok r)
    (canonical : e.Canonical) : r.SymbolsFrom {e} :=
  (closedClass_madeFrom.of_expand found
    (madeFrom_of_mem canonical (Set.mem_singleton e))).symbolsFrom

/-- The derivative has the variable itself where it stays formal. -/
theorem symbolsFrom_differentiate {e x r : Expr}
    (found : (differentiate e x : Except Error Expr) = .ok r) (canonical : e.Canonical) :
    r.SymbolsFrom {e, x} := by
  obtain ⟨name, variable_name, found⟩ := bind_eq_ok_iff.mp found
  obtain rfl : x = symbol name := by
    cases x <;> cases variable_name
    rfl
  have made : MadeFrom {e, symbol name} (symbol name) :=
    madeFrom_of_mem (.symbol name) (by simp)
  exact (closedClass_madeFrom.of_derivativeBy made found
    (madeFrom_of_mem canonical (by simp))).symbolsFrom

theorem symbolsFrom_substitute {map : Substitution Expr} {e r : Expr}
    (values : ∀ k v, map.find k = some v → v.Canonical)
    (found : (substitute map e : Except Error Expr) = .ok r) (canonical : e.Canonical) :
    r.SymbolsFrom ({e} ∪ {v | ∃ k, map.find k = some v}) := by
  have made : ∀ k v, map.find k = some v →
      MadeFrom ({e} ∪ {v | ∃ k, map.find k = some v}) v :=
    fun k v listed => madeFrom_of_mem (values k v listed) (.inr ⟨k, listed⟩)
  exact (closedClass_madeFrom.of_substitute made found
    (madeFrom_of_mem canonical (.inl rfl))).symbolsFrom

/-- No operation invents a symbol. What sums, products, powers, absolute values and expansions have
comes from their operands; a derivative may have the variable besides, and a substitution what the
replacements bring along. -/
theorem symbolsFrom_operands {operands : List Expr} {b e : Expr} (x : Expr)
    {map : Substitution Expr} (canonical_operands : ∀ o ∈ operands, o.Canonical)
    (base : b.Canonical) (canonical : e.Canonical)
    (values : ∀ k v, map.find k = some v → v.Canonical) :
    (sumOf operands).SymbolsFrom {o | o ∈ operands} ∧
    (∀ r, (productOf operands : Except Error Expr) = .ok r →
      r.SymbolsFrom {o | o ∈ operands}) ∧
    (∀ r, (powerOf b e : Except Error Expr) = .ok r → r.SymbolsFrom {b, e}) ∧
    (absolute e).SymbolsFrom {e} ∧
    (∀ r, (expand e : Except Error Expr) = .ok r → r.SymbolsFrom {e}) ∧
    (∀ r, (differentiate e x : Except Error Expr) = .ok r → r.SymbolsFrom {e, x}) ∧
    ∀ r, (substitute map e : Except Error Expr) = .ok r →
      r.SymbolsFrom ({e} ∪ {v | ∃ k, map.find k = some v}) :=
  ⟨symbolsFrom_sumOf canonical_operands,
    fun _ found => symbolsFrom_productOf found canonical_operands,
    fun _ found => symbolsFrom_powerOf found base canonical, symbolsFrom_absolute canonical,
    fun _ found => symbolsFrom_expand found canonical,
    fun _ found => symbolsFrom_differentiate found canonical,
    fun _ found => symbolsFrom_substitute values found canonical⟩

/-- Two roots are multiplied out, `x**n` is differentiated formally by its exponent, and `z` comes
in for the exponent. -/
theorem symbolsFrom_operands_exponent :
    productOfTwo.SymbolsFrom {o | o ∈ [rootOfProduct, rootOfProduct]} ∧
      (derivative (power (symbol "x") (symbol "n")) ["n"]).SymbolsFrom
        {power (symbol "x") (symbol "n"), symbol "n"} ∧
      (power (symbol "x") (symbol "z")).SymbolsFrom ({power (symbol "x") (symbol "n")} ∪
        {v | ∃ k, Substitution.find [(symbol "n", symbol "z")] k = some v}) := by
  have symbolic : (power (symbol "x") (symbol "n")).Canonical :=
    .power (canonicalPower_of_symbolic rfl (by simp)) (.symbol "x") (.symbol "n")
  have values : ∀ k v, Substitution.find [(symbol "n", symbol "z")] k = some v → v.Canonical := by
    intro k v listed
    cases List.mem_singleton.mp (Substitution.mem_of_find listed)
    exact .symbol "z"
  obtain ⟨_, products, _, _, _, derivatives, substitutions⟩ := symbolsFrom_operands (symbol "n")
    (canonical_pair canonical_rootOfProduct canonical_rootOfProduct) canonical_rootOfNested symbolic
    values
  exact ⟨products _ (by cbv), derivatives _ (by cbv), substitutions _ (by cbv)⟩

end SymbolicAlgebra
