import SymbolicAlgebra.Node
import SymbolicAlgebra.Proofs.DerivativeLaws

namespace SymbolicAlgebra

open SymbolicAlgebra.Expr

/-- A symbol stands somewhere in an expression: as a leaf or as a variable of a formal derivative,
at any depth below the stored terms, bases, exponents and arguments. -/
inductive Expr.Occurs (name : String) : Expr → Prop where
  | symbol : Occurs name (symbol name)
  | variable {a names} (listed : name ∈ names) : Occurs name (derivative a names)
  | part {e part} (stored : part ∈ e.parts) (inner : Occurs name part) : Occurs name e

section Occurs

variable {name : String}

theorem occurs_iff {e : Expr} :
    e.Occurs name ↔ name ∈ e.ownSymbols ∨ ∃ part ∈ e.parts, part.Occurs name := by
  constructor
  · rintro (_ | listed | ⟨stored, inner⟩)
    · exact .inl (List.mem_singleton_self _)
    · exact .inl listed
    · exact .inr ⟨_, stored, inner⟩
  · rintro (own | ⟨part, stored, inner⟩)
    · cases e with
      | symbol other =>
        cases List.mem_singleton.mp own
        exact .symbol
      | derivative a names => exact .variable own
      | _ => cases own
    · exact .part stored inner

theorem not_occurs_number (q : Rat) : ¬ (number q).Occurs name := by
  rw [occurs_iff]
  simp [ownSymbols, parts]

theorem occurs_symbol_iff {other : String} : (symbol other).Occurs name ↔ name = other := by
  rw [occurs_iff]
  simp [ownSymbols, parts]

theorem occurs_sum_iff {constant : Rat} {terms : List Multiple} :
    (sum constant terms).Occurs name ↔ ∃ t q, (t, q) ∈ terms ∧ t.Occurs name := by
  rw [occurs_iff]
  simp only [ownSymbols, List.not_mem_nil, false_or, parts, List.mem_append, List.mem_map,
    List.mem_singleton]
  constructor
  · rintro ⟨part, ⟨⟨t, q⟩, stored, rfl⟩ | rfl, inner⟩
    · exact ⟨t, q, stored, inner⟩
    · exact absurd inner (not_occurs_number constant)
  · rintro ⟨t, q, stored, inner⟩
    exact ⟨t, .inl ⟨(t, q), stored, rfl⟩, inner⟩

theorem occurs_product_iff {q : Rat} {factors : List Factor} : (product q factors).Occurs name ↔
    ∃ b e, (b, e) ∈ factors ∧ (b.Occurs name ∨ e.Occurs name) := by
  rw [occurs_iff]
  simp only [ownSymbols, List.not_mem_nil, false_or, parts, List.mem_append, List.mem_flatMap,
    List.mem_singleton]
  constructor
  · rintro ⟨part, ⟨⟨b, e⟩, stored, member⟩ | rfl, inner⟩
    · rcases List.mem_pair.mp member with rfl | rfl
      · exact ⟨_, e, stored, .inl inner⟩
      · exact ⟨b, _, stored, .inr inner⟩
    · exact absurd inner (not_occurs_number q)
  · rintro ⟨b, e, stored, inner | inner⟩
    · exact ⟨b, .inl ⟨(b, e), stored, by simp⟩, inner⟩
    · exact ⟨e, .inl ⟨(b, e), stored, by simp⟩, inner⟩

theorem occurs_power_iff {b e : Expr} :
    (power b e).Occurs name ↔ b.Occurs name ∨ e.Occurs name := by
  rw [occurs_iff]
  simp [ownSymbols, parts]

theorem occurs_derivative_iff {a : Expr} {names : List String} :
    (derivative a names).Occurs name ↔ name ∈ names ∨ a.Occurs name := by
  rw [occurs_iff]
  simp [ownSymbols, parts]

theorem occurs_sin_iff {a : Expr} : (sin a).Occurs name ↔ a.Occurs name := by
  rw [occurs_iff]
  simp [ownSymbols, parts]

theorem occurs_cos_iff {a : Expr} : (cos a).Occurs name ↔ a.Occurs name := by
  rw [occurs_iff]
  simp [ownSymbols, parts]

theorem occurs_apply_iff {function : String} {a : Expr} :
    (apply function a).Occurs name ↔ a.Occurs name := by
  rw [occurs_iff]
  simp [ownSymbols, parts]

/-- The first query walks over what is stored. -/
theorem hasSymbol_iff_occurs {e : Expr} : e.hasSymbol name = true ↔ e.Occurs name := by
  induction e using Expr.induction with
  | number q => simp [hasSymbol, not_occurs_number]
  | symbol other => rw [hasSymbol, beq_iff_eq, occurs_symbol_iff, eq_comm]
  | sum constant terms ih =>
    rw [occurs_sum_iff, hasSymbol, ← Bool.not_eq_false, termsHaveSymbol_eq_false_iff]
    push Not
    refine exists_congr fun t => exists_congr fun q => and_congr_right fun stored => ?_
    rw [← ih t q stored, ne_eq, Bool.not_eq_false]
  | product q factors ih =>
    rw [occurs_product_iff, hasSymbol, ← Bool.not_eq_false, factorsHaveSymbol_eq_false_iff]
    push Not
    refine exists_congr fun b => exists_congr fun e => and_congr_right fun stored => ?_
    rw [← (ih b e stored).1, ← (ih b e stored).2]
    cases b.hasSymbol name <;> simp
  | power b e base exponent => rw [hasSymbol, Bool.or_eq_true, base, exponent, occurs_power_iff]
  | derivative a names target =>
    rw [hasSymbol, Bool.or_eq_true, target, occurs_derivative_iff, List.contains_iff_mem]
  | sin a argument => rw [hasSymbol, argument, occurs_sin_iff]
  | cos a argument => rw [hasSymbol, argument, occurs_cos_iff]
  | apply function a argument => rw [hasSymbol, argument, occurs_apply_iff]

theorem occurs_withCoefficient_iff {q : Rat} (nonzero : q ≠ 0) {factors : List Factor} :
    (withCoefficient q factors).Occurs name ↔
      ∃ b e, (b, e) ∈ factors ∧ (b.Occurs name ∨ e.Occurs name) := by
  unfold withCoefficient
  rw [if_neg nonzero]
  split
  · simp [not_occurs_number]
  · rename_i factor
    obtain ⟨b, e⟩ := factor
    split
    · unfold ofFactor
      split
      · rename_i one
        obtain rfl := isNumber_iff.mp one
        simp [not_occurs_number]
      · simp [occurs_power_iff]
    · exact occurs_product_iff
  · exact occurs_product_iff

/-- A multiple of an expression has the symbols of the expression: the number reaches coefficients
only, and no coefficient vanishes. -/
theorem occurs_scale_iff {e : Expr} (canonical : e.Canonical) {q : Rat} (nonzero : q ≠ 0) :
    (e.scale q).Occurs name ↔ e.Occurs name := by
  cases canonical.shape with
  | number r =>
    rw [scale_number]
    exact iff_of_false (not_occurs_number _) (not_occurs_number r)
  | sum form each =>
    rw [scale_sum nonzero, occurs_sum_iff, occurs_sum_iff]
    simp
  | multiple coefficient kept =>
    rw [kept.scale_withCoefficient, occurs_withCoefficient_iff (mul_ne_zero nonzero coefficient),
      occurs_withCoefficient_iff coefficient]

end Occurs

theorem mem_insertName_iff {name other : String} {names : List String} :
    name ∈ insertName other names ↔ name = other ∨ name ∈ names := by
  induction names with
  | nil => exact List.mem_singleton.trans (by simp)
  | cons first rest ih =>
    rw [insertName]
    split
    · exact List.mem_cons
    · split
      · rename_i same
        rw [same, List.mem_cons, ← or_assoc, or_self]
      · rw [List.mem_cons, ih, List.mem_cons, or_left_comm]

theorem mem_foldl_insertName_iff {name : String} {added names : List String} :
    name ∈ added.foldl (fun found name => insertName name found) names ↔
      name ∈ names ∨ name ∈ added := by
  induction added generalizing names with
  | nil => simp
  | cons first rest ih =>
    rw [List.foldl_cons, ih, mem_insertName_iff, List.mem_cons, or_comm (a := name = first),
      or_assoc]

theorem canonical_searched {e : Expr} (canonical : e.Canonical) :
    ∀ next ∈ e.searched, next.Canonical := by
  intro next member
  cases e with
  | product q factors => exact canonical_parts canonical next (List.mem_append_left _ member)
  | _ => exact canonical_operands canonical next member

/-- What is searched next has the symbols of what is stored: the scaled terms of a sum those of its
terms, and coefficients and constants have none. -/
theorem exists_searched_iff {name : String} {e : Expr} (canonical : e.Canonical) :
    (∃ next ∈ e.searched, next.Occurs name) ↔ ∃ part ∈ e.parts, part.Occurs name := by
  cases canonical with
  | @sum constant terms form each =>
    have constants : ¬ ∃ next ∈ if constant = 0 then [] else [Expr.number constant],
        next.Occurs name := by
      split <;> simp [not_occurs_number]
    simp only [searched, operands, parts, List.mem_append, List.mem_map, List.mem_singleton,
      or_and_right, exists_or, exists_eq_left, exists_exists_and_eq_and, constants,
      not_occurs_number, or_false]
    refine exists_congr fun multiple => and_congr_right fun stored => ?_
    exact occurs_scale_iff (each _ _ stored) (form.multiplicity _ _ stored)
  | product form bases exponents =>
    simp only [searched, parts, List.mem_append, or_and_right, exists_or, List.mem_singleton,
      exists_eq_left, not_occurs_number, or_false]
  | _ => rfl

theorem collectSymbols_eq (found : List String) (e : Expr) :
    collectSymbols found e = e.searched.foldl collectSymbols
      (e.ownSymbols.foldl (fun found name => insertName name found) found) := by
  rw [collectSymbols, List.foldl_subtype (g := collectSymbols), List.unattach_attach]
  intro found next inside
  rfl

theorem mem_foldl_collectSymbols_iff {name : String} {es : List Expr} {found : List String}
    (each : ∀ e ∈ es, ∀ found, name ∈ collectSymbols found e ↔ name ∈ found ∨ e.Occurs name) :
    name ∈ es.foldl collectSymbols found ↔ name ∈ found ∨ ∃ e ∈ es, e.Occurs name := by
  induction es generalizing found with
  | nil => simp
  | cons first rest ih =>
    obtain ⟨here, later⟩ := List.forall_mem_cons.mp each
    rw [List.foldl_cons, ih later, here, or_assoc, List.exists_mem_cons_iff]

/-- The second query adds just the symbols that stand in the expression. -/
theorem mem_collectSymbols_iff {name : String} : ∀ {e : Expr} {found : List String}, e.Canonical →
    (name ∈ collectSymbols found e ↔ name ∈ found ∨ e.Occurs name)
  | e, found, canonical => by
    have each : ∀ next ∈ e.searched, ∀ found,
        name ∈ collectSymbols found next ↔ name ∈ found ∨ next.Occurs name :=
      fun next inside found => mem_collectSymbols_iff (canonical_searched canonical next inside)
    rw [collectSymbols_eq, mem_foldl_collectSymbols_iff each, mem_foldl_insertName_iff,
      exists_searched_iff canonical, occurs_iff, or_assoc]
termination_by e => e.size
decreasing_by exact size_searched_lt inside

theorem mem_freeSymbols_iff_occurs {name : String} {e : Expr} (canonical : e.Canonical) :
    name ∈ e.freeSymbols ↔ e.Occurs name := by
  rw [freeSymbols, mem_collectSymbols_iff canonical]
  simp

theorem acc_searched (e : Expr) : Acc (fun next e : Expr => next ∈ e.searched) e :=
  (Subrelation.wf size_searched_lt (measure size).wf).apply e

/-- The two queries for symbols agree with each other and with what stands in the expression, and no
search through the operands goes on for ever. -/
theorem symbolQueries_agree {e : Expr} (canonical : e.Canonical) (name : String) :
    (name ∈ e.freeSymbols ↔ e.hasSymbol name = true) ∧
      (e.hasSymbol name = true ↔ e.Occurs name) ∧
      Acc (fun next e : Expr => next ∈ e.searched) e :=
  ⟨(mem_freeSymbols_iff_occurs canonical).trans hasSymbol_iff_occurs.symm, hasSymbol_iff_occurs,
    acc_searched e⟩

/-- In `2*x**n - D[z](f(y))` the symbols `n` and `z` stand only in an exponent and as a variable. -/
theorem symbolQueries_agree_exponent :
    "n" ∈ (sum 0 [(power (symbol "x") (symbol "n"), 2),
        (derivative (apply "f" (symbol "y")) ["z"], -1)]).freeSymbols ∧
      (sum 0 [(power (symbol "x") (symbol "n"), 2),
        (derivative (apply "f" (symbol "y")) ["z"], -1)]).Occurs "z" := by
  have power : (power (symbol "x") (symbol "n")).Canonical :=
    .power (canonicalPower_of_symbolic rfl (by simp)) (.symbol "x") (.symbol "n")
  have slope : (derivative (apply "f" (symbol "y")) ["z"]).Canonical :=
    .derivative (by simp) (.apply (.symbol "y"))
  have canonical := canonical_sum_pair (c := 0) (p := 2) (q := -1) power slope trivial trivial
    (by decide) (by decide) (by decide)
  obtain ⟨queries, _, _⟩ := symbolQueries_agree canonical "n"
  obtain ⟨_, occurs, _⟩ := symbolQueries_agree canonical "z"
  exact ⟨queries.mpr (by decide), occurs.mp (by decide)⟩

end SymbolicAlgebra
