import SymbolicAlgebra.Term
import SymbolicAlgebra.Node
import SymbolicAlgebra.Proofs.Rewriting

namespace SymbolicAlgebra

open SymbolicAlgebra.Expr

/-- A class of expressions that nothing leads out of: what the algebra makes of members is a member,
and so is what is stored in a member or is an operand of it. Variables of formal derivatives count
as symbols. -/
structure Expr.ClosedClass (P : Expr → Prop) : Prop where
  number (q : Rat) : P (Expr.number q)
  multiple {e} (q : Rat) : P e → P (e.scale q)
  sum {summands} : (∀ e ∈ summands, P e) → P (sumOf summands)
  product {operands r} : (productOf operands : Except Error Expr) = .ok r →
    (∀ e ∈ operands, P e) → P r
  power {b e r} : (powerOf b e : Except Error Expr) = .ok r → P b → P e → P r
  sine {a} : P a → P (sineOf a)
  cosine {a} : P a → P (cosineOf a)
  application {name a a'} : P (apply name a) → P a' → P (apply name a')
  derivative {a names} : names ≠ [] → (∀ name ∈ names, P (symbol name)) → P a →
    P (Expr.derivative a names)
  listed {a names} : P (Expr.derivative a names) →
    names ≠ [] ∧ ∀ name ∈ names, P (symbol name)
  part {e} : P e → ∀ part ∈ e.parts, P part
  operand {e} : P e → ∀ operand ∈ e.operands, P operand

theorem expand_eq_self {e : Expr} (not_sum : ∀ c terms, e ≠ sum c terms)
    (not_product : ∀ q factors, e ≠ product q factors) (not_power : ∀ b x, e ≠ power b x) :
    (expand e : Except Error Expr) = .ok e := by
  rw [expand]
  · rfl
  · exact not_sum
  · exact not_product
  · exact not_power

theorem expand_sum (constant : Rat) (terms : List Multiple) :
    (expand (sum constant terms) : Except Error Expr) =
      (fun summands => sumOf (summands ++ [number constant])) <$>
        terms.mapM fun multiple => scale multiple.2 <$> expand multiple.1 := by
  rw [expand, List.mapM_subtype
    (g := fun multiple : Multiple => scale multiple.2 <$> expand multiple.1), List.unattach_attach]
  · rfl
  · intro multiple inside
    rfl

theorem expand_product (q : Rat) (factors : List Factor) :
    (expand (product q factors) : Except Error Expr) =
      (partsOf factors).foldlM (fun acc part => do distribute acc (← expand part)) (number q) := by
  rw [expand, List.foldlM_subtype
    (g := fun acc part => do distribute acc (← expand part)), List.unattach_attach]
  intro acc part inside
  rfl

/-- A power is expanded from the expansions of its base and its exponent. Only positive integer
powers of sums are multiplied out. -/
theorem expand_power_cases {b x r : Expr}
    (found : (expand (power b x) : Except Error Expr) = .ok r) :
    ∃ b' x', (expand b : Except Error Expr) = .ok b' ∧ (expand x : Except Error Expr) = .ok x' ∧
      ((∃ c terms, ∃ n : Int, b' = sum c terms ∧ x' = number n ∧ 0 < n ∧
          (expandPower b' n.toNat : Except Error Expr) = .ok r) ∨
        (∀ c terms (n : Int), b' = sum c terms → x' = number n → ¬ 0 < n) ∧
          (powerOf b' x' : Except Error Expr) = .ok r) := by
  rw [expand] at found
  obtain ⟨b', base, found⟩ := bind_eq_ok_iff.mp found
  obtain ⟨x', exponent, found⟩ := bind_eq_ok_iff.mp found
  refine ⟨b', x', base, exponent, ?_⟩
  split at found
  · rename_i c terms n integer _
    obtain rfl := integer?_eq_some_iff.mp integer
    split at found
    · rename_i positive
      exact .inl ⟨c, terms, n, rfl, rfl, positive, found⟩
    · rename_i not_positive
      refine .inr ⟨fun c terms m _ same => ?_, found⟩
      obtain rfl : n = m := by exact_mod_cast number.inj same
      exact not_positive
  · rename_i other
    refine .inr ⟨?_, found⟩
    rintro c terms n rfl rfl
    exact absurd (integer?_number n) (other c terms n rfl)

namespace Expr.ClosedClass

variable {P : Expr → Prop} (closed : ClosedClass P)

include closed

theorem of_summed {summands : List Expr} {r : Expr}
    (found : (summed summands : Except Error Expr) = .ok r) (members : ∀ e ∈ summands, P e) :
    P r := by
  cases found
  exact closed.sum members

theorem term {constant : Rat} {terms : List Multiple} (member : P (Expr.sum constant terms))
    {t : Expr} {q : Rat} (stored : (t, q) ∈ terms) : P t :=
  closed.part member t (List.mem_append_left _ (List.mem_map.mpr ⟨(t, q), stored, rfl⟩))

theorem factor {q : Rat} {factors : List Factor} (member : P (Expr.product q factors))
    {b e : Expr} (stored : (b, e) ∈ factors) : P b ∧ P e := by
  have inside {part : Expr} (either : part ∈ [b, e]) : P part :=
    closed.part member part
      (List.mem_append_left _ (List.mem_flatMap.mpr ⟨(b, e), stored, either⟩))
  exact ⟨inside (by simp), inside (by simp)⟩

theorem base_exponent {b e : Expr} (member : P (Expr.power b e)) : P b ∧ P e :=
  ⟨closed.part member b (by simp [parts]), closed.part member e (by simp [parts])⟩

theorem partsOf_factors {q : Rat} {factors : List Factor} (member : P (Expr.product q factors)) :
    ∀ part ∈ partsOf factors, P part := fun part inside =>
  closed.operand member part (List.mem_append_right _ inside)

omit closed in
theorem pair {a b : Expr} (left : P a) (right : P b) : ∀ e ∈ [a, b], P e := by
  simp [left, right]

/-- Derivatives of members by a symbol that is one are members. -/
theorem of_derivativeBy {x : String} (variable_x : P (symbol x)) : ∀ {e r : Expr},
    (derivativeBy x e : Except Error Expr) = .ok r → P e → P r
  | .number q, r, found, _ => by
    rw [derivativeBy] at found
    cases found
    exact closed.number 0
  | .symbol name, r, found, _ => by
    rw [derivativeBy] at found
    cases found
    exact closed.number _
  | .sum constant terms, r, found, member => by
    rw [derivativeBy] at found
    obtain ⟨_, _, found⟩ := bind_eq_ok_iff.mp found
    obtain ⟨summands, slopes, found⟩ := bind_eq_ok_iff.mp found
    refine closed.of_summed found fun e summand => ?_
    obtain ⟨⟨⟨t, q⟩, inside⟩, _, result⟩ := exists_of_mem_mapM slopes summand
    obtain ⟨slope, derived, result⟩ := bind_eq_ok_iff.mp result
    cases result
    exact closed.multiple q (of_derivativeBy variable_x derived (closed.term member inside))
  | .product coefficient factors, r, found, member => by
    rw [derivativeBy] at found
    obtain ⟨_, _, found⟩ := bind_eq_ok_iff.mp found
    obtain ⟨summands, slopes, found⟩ := bind_eq_ok_iff.mp found
    have parts := closed.partsOf_factors member
    refine closed.of_summed found fun e summand => ?_
    obtain ⟨⟨⟨part, inside⟩, i⟩, _, result⟩ := exists_of_mem_mapM slopes summand
    obtain ⟨slope, derived, result⟩ := bind_eq_ok_iff.mp result
    split at result
    · cases result
      exact closed.number 0
    · have inner := of_derivativeBy variable_x derived (parts part inside)
      refine closed.product result fun operand listed => ?_
      rcases List.mem_append.mp listed with listed | listed
      · rcases List.mem_cons.mp listed with rfl | listed
        · exact closed.number _
        · exact parts operand (List.mem_of_mem_eraseIdx listed)
      · cases List.mem_singleton.mp listed
        exact inner
  | .power b e, r, found, member => by
    rw [derivativeBy] at found
    obtain ⟨_, _, found⟩ := bind_eq_ok_iff.mp found
    split at found
    · cases found
      exact closed.derivative (by simp) (by simpa using variable_x) member
    · obtain ⟨slope, derived, found⟩ := bind_eq_ok_iff.mp found
      split at found
      · cases found
        exact closed.number 0
      · obtain ⟨total, lowered, found⟩ := bind_eq_ok_iff.mp found
        obtain ⟨reduced, raised, found⟩ := bind_eq_ok_iff.mp found
        obtain ⟨base, exponent⟩ := closed.base_exponent member
        have inner := of_derivativeBy variable_x derived base
        have total := closed.of_summed lowered (pair exponent (closed.number _))
        have power := closed.power raised base total
        exact closed.product found (List.forall_mem_cons.mpr ⟨exponent, pair power inner⟩)
  | .sin a, r, found, member => by
    rw [derivativeBy] at found
    obtain ⟨_, _, found⟩ := bind_eq_ok_iff.mp found
    obtain ⟨slope, derived, found⟩ := bind_eq_ok_iff.mp found
    have argument := closed.part member a (by simp [parts])
    have inner := of_derivativeBy variable_x derived argument
    exact closed.product found (pair (closed.cosine argument) inner)
  | .cos a, r, found, member => by
    rw [derivativeBy] at found
    obtain ⟨_, _, found⟩ := bind_eq_ok_iff.mp found
    obtain ⟨slope, derived, found⟩ := bind_eq_ok_iff.mp found
    have argument := closed.part member a (by simp [parts])
    have inner := of_derivativeBy variable_x derived argument
    exact closed.product found
      (List.forall_mem_cons.mpr ⟨closed.number _, pair (closed.sine argument) inner⟩)
  | .apply name a, r, found, member => by
    rw [derivativeBy] at found
    obtain ⟨_, _, found⟩ := bind_eq_ok_iff.mp found
    obtain ⟨slope, derived, found⟩ := bind_eq_ok_iff.mp found
    cases found
    split
    · exact closed.number 0
    · exact closed.derivative (by simp) (by simpa using variable_x) member
  | .derivative a names, r, found, member => by
    rw [derivativeBy] at found
    cases found
    have listed := (closed.listed member).2
    refine closed.derivative (by simp) (fun name inside => ?_)
      (closed.part member a (by simp [parts]))
    rcases List.mem_append.mp inside with inside | inside
    · exact listed name inside
    · cases List.mem_singleton.mp inside
      exact variable_x
termination_by e => e.size
decreasing_by
  · have := size_term_lt inside
    simp only [size]
    omega
  · have := size_part_lt inside
    simp only [size]
    omega
  all_goals
    simp only [size]
    omega

theorem of_summandsOf {e : Expr} (member : P e) : ∀ summand ∈ summandsOf e, P summand := by
  intro summand inside
  unfold summandsOf at inside
  split at inside
  · exact closed.operand member summand inside
  · cases List.mem_singleton.mp inside
    exact member

theorem of_distribute {a b r : Expr} (found : (distribute a b : Except Error Expr) = .ok r)
    (left : P a) (right : P b) : P r := by
  obtain ⟨products, multiplied, found⟩ := bind_eq_ok_iff.mp found
  refine closed.of_summed found fun e member => ?_
  obtain ⟨operands, both, product⟩ := exists_of_mem_mapM multiplied member
  obtain ⟨l, first, both⟩ := List.mem_flatMap.mp both
  obtain ⟨r, second, rfl⟩ := List.mem_map.mp both
  exact closed.product product
    (pair (closed.of_summandsOf left l first) (closed.of_summandsOf right r second))

theorem of_distributeTimes {e acc r : Expr} {n : Nat}
    (found : (distributeTimes e n acc : Except Error Expr) = .ok r) (member : P e)
    (start : P acc) : P r := by
  induction n generalizing acc with
  | zero =>
    cases found
    exact start
  | succ n ih =>
    obtain ⟨next, distributed, found⟩ := bind_eq_ok_iff.mp found
    exact ih found (closed.of_distribute distributed start member)

theorem of_expandPower {b r : Expr} {n : Nat}
    (found : (expandPower b n : Except Error Expr) = .ok r) (member : P b) : P r := by
  unfold expandPower at found
  split at found
  · cases found
  · obtain ⟨_, _, found⟩ := bind_eq_ok_iff.mp found
    exact closed.of_distributeTimes found member member

/-- Expansions of members are members. -/
theorem of_expand {e r : Expr} (found : (expand e : Except Error Expr) = .ok r) (member : P e) :
    P r := by
  cases shape : e with
  | sum constant terms =>
    rw [shape, expand_sum] at found
    rw [shape] at member
    obtain ⟨summands, expanded, rfl⟩ := map_eq_ok_iff.mp found
    refine closed.sum fun e summand => ?_
    rcases List.mem_append.mp summand with summand | summand
    · obtain ⟨⟨t, q⟩, inside, result⟩ := exists_of_mem_mapM expanded summand
      obtain ⟨inner, expansion, rfl⟩ := map_eq_ok_iff.mp result
      exact closed.multiple q (of_expand expansion (closed.term member inside))
    · cases List.mem_singleton.mp summand
      exact closed.number _
  | product coefficient factors =>
    rw [shape, expand_product] at found
    rw [shape] at member
    refine foldlM_preserves found (closed.number coefficient) ?_
    intro part inside acc next start step
    obtain ⟨factor, expanded, distributed⟩ := bind_eq_ok_iff.mp step
    have inner := of_expand expanded (closed.partsOf_factors member part inside)
    exact closed.of_distribute distributed start inner
  | power b x =>
    rw [shape] at found member
    obtain ⟨b', x', expanded_base, expanded_exponent, outcome⟩ := expand_power_cases found
    obtain ⟨base, exponent⟩ := closed.base_exponent member
    have inner := of_expand expanded_base base
    have outer := of_expand expanded_exponent exponent
    rcases outcome with ⟨c, terms, n, rfl, _, _, found⟩ | ⟨_, found⟩
    · exact closed.of_expandPower found inner
    · exact closed.power found inner outer
  | _ =>
    rw [expand_eq_self (by simp [shape]) (by simp [shape]) (by simp [shape])] at found
    cases found
    exact member
termination_by e.size
decreasing_by
  · have := size_term_lt inside
    simp only [shape, size]
    omega
  · have := size_part_lt inside
    simp only [shape, size]
    omega
  all_goals
    simp only [shape, size]
    omega

omit closed in
theorem of_part {before : Expr} {after : Option Expr} (whole : P before)
    (changed : ∀ r, after = some r → P r) : P (Part.mk before after).value := by
  cases after with
  | none => exact whole
  | some r => exact changed r rfl

variable {map : Substitution Expr} (values : ∀ k r, map.find k = some r → P r)

/-- Whatever becomes of members below a size is a member. -/
def RewritesBelow (P : Expr → Prop) (map : Substitution Expr) (size : Nat) : Prop :=
  ∀ part after, part.size < size → P part →
    (rewrite map part : Except Error (Option Expr)) = .ok after → P (Part.mk part after).value

omit closed in
include values in
theorem of_lookup {before : Expr} (whole : P before) (key : Expr) :
    P (Part.mk before (map.find key)).value :=
  of_part whole fun r replaced => values key r replaced

include values

theorem of_rewriteSum {constant : Rat} {terms : List Multiple} {r : Expr}
    (below : RewritesBelow P map (Expr.sum constant terms).size)
    (member : P (Expr.sum constant terms)) (unlisted : map.find (Expr.sum constant terms) = none)
    (found : (rewrite map (Expr.sum constant terms) : Except Error (Option Expr)) =
      .ok (some r)) : P r := by
  rw [rewrite_sum unlisted] at found
  obtain ⟨parts, rewritten, found⟩ := bind_eq_ok_iff.mp found
  refine closed.of_summed (rebuild_eq_some found) fun e summand => ?_
  obtain ⟨part, inside, rfl⟩ := List.mem_map.mp summand
  rcases List.mem_append.mp inside with inside | inside
  · obtain ⟨⟨t, q⟩, stored, result⟩ := exists_of_mem_mapM rewritten inside
    obtain ⟨after, changed, rfl⟩ := map_eq_ok_iff.mp result
    have smaller : (t.scale q).size < (Expr.sum constant terms).size := by
      have := size_term_lt stored
      have := size_scale_le q t
      simp only [size]
      omega
    exact below _ _ smaller (closed.multiple q (closed.term member stored)) changed
  · obtain ⟨_, rfl⟩ := of_mem_numberParts inside
    exact of_lookup values (closed.number _) _

theorem of_rewriteFactor {b e : Expr} {size : Nat} {part : Part Expr}
    (below : RewritesBelow P map size) (bound : b.size < size ∧ e.size < size)
    (whole : P (ofFactor (b, e))) (base : P b) (exponent : P e)
    (found : rewriteFactor map (b, e) = .ok part) : P part.value := by
  rcases rewriteFactor_cases found with ⟨r, listed, rfl⟩ |
    ⟨b', e', after, changed_base, changed_exponent, rebuilt, rfl⟩
  · exact values _ r listed
  · refine of_part whole fun r replaced => ?_
    rw [replaced] at rebuilt
    exact closed.power (rebuildPair_eq_some rebuilt)
      (below _ _ bound.1 base changed_base) (below _ _ bound.2 exponent changed_exponent)

theorem of_rewriteProduct {coefficient : Rat} {factors : List Factor} {r : Expr}
    (below : RewritesBelow P map (Expr.product coefficient factors).size)
    (member : P (Expr.product coefficient factors))
    (unlisted : map.find (Expr.product coefficient factors) = none)
    (found : (rewrite map (Expr.product coefficient factors) : Except Error (Option Expr)) =
      .ok (some r)) : P r := by
  have number := of_lookup values (closed.number coefficient) (Expr.number coefficient)
  rcases map.rest_cases coefficient (withCoefficient 1 factors) with
    ⟨scaled, replacement, listed⟩ | unlisted_rest
  · rw [rewrite_product_of_rest unlisted scaled listed] at found
    obtain ⟨whole, product, same⟩ := map_eq_ok_iff.mp found
    cases same
    exact closed.product product (pair number (values _ _ listed))
  · rw [rewrite_product unlisted unlisted_rest] at found
    obtain ⟨parts, rewritten, found⟩ := bind_eq_ok_iff.mp found
    refine closed.product (rebuild_eq_some found) fun e operand => ?_
    obtain ⟨part, inside, rfl⟩ := List.mem_map.mp operand
    rcases List.mem_append.mp inside with inside | inside
    · obtain ⟨_, rfl⟩ := of_mem_numberParts inside
      exact number
    · obtain ⟨⟨b, x⟩, stored, result⟩ := exists_of_mem_mapM rewritten inside
      have bound : b.size < (Expr.product coefficient factors).size ∧
          x.size < (Expr.product coefficient factors).size := by
        have := size_factor_lt stored
        simp only [size]
        omega
      obtain ⟨base, exponent⟩ := closed.factor member stored
      have whole := closed.partsOf_factors member _ (List.mem_map.mpr ⟨(b, x), stored, rfl⟩)
      exact closed.of_rewriteFactor values below bound whole base exponent result

omit closed in
theorem of_rename {name other : String} (member : P (symbol name))
    (found : (rename map name : Except Error String) = .ok other) : P (symbol other) := by
  unfold rename at found
  split at found
  · cases found
    exact member
  · rename_i r listed
    split at found
    · rename_i renamed shape
      cases found
      have replaced := values _ r listed
      cases r with
      | symbol other =>
        cases shape
        exact replaced
      | _ => cases shape
    · cases found

theorem of_rewriteDerivative {a r : Expr} {names : List String}
    (below : RewritesBelow P map (Expr.derivative a names).size)
    (member : P (Expr.derivative a names)) (unlisted : map.find (Expr.derivative a names) = none)
    (found : (rewrite map (Expr.derivative a names) : Except Error (Option Expr)) =
      .ok (some r)) : P r := by
  rw [rewrite_derivative unlisted] at found
  obtain ⟨renamed, names_found, found⟩ := bind_eq_ok_iff.mp found
  obtain ⟨after, changed, found⟩ := bind_eq_ok_iff.mp found
  have result := Except.ok.inj found
  split at result
  · cases result
  · cases result
    obtain ⟨form, listed⟩ := closed.listed member
    have nonempty : renamed ≠ [] := by
      have length := (mapM_eq_ok_iff.mp names_found).length_eq
      intro empty
      rw [empty] at length
      exact form (List.eq_nil_of_length_eq_zero length)
    have target := closed.part member a (by simp [parts])
    have inner := below a after (by simp only [size]; omega) target changed
    refine closed.derivative nonempty (fun name inside => ?_) inner
    obtain ⟨old, stored, renames⟩ := exists_of_mem_mapM names_found inside
    exact of_rename values (listed old stored) renames

/-- Replacing parts of members by members gives members. -/
theorem of_rewrite {e r : Expr}
    (found : (rewrite map e : Except Error (Option Expr)) = .ok (some r)) (member : P e) :
    P r := by
  have below : RewritesBelow P map e.size := by
    intro part after smaller whole changed
    refine of_part whole fun r replaced => ?_
    rw [replaced] at changed
    exact of_rewrite changed whole
  cases lookup : map.find e with
  | some replacement =>
    rw [rewrite_of_find lookup] at found
    have result := Except.ok.inj found
    split at result
    · cases result
    · cases result
      exact values e r lookup
  | none =>
    cases e with
    | sum constant terms => exact closed.of_rewriteSum values below member lookup found
    | product coefficient factors => exact closed.of_rewriteProduct values below member lookup found
    | derivative a names => exact closed.of_rewriteDerivative values below member lookup found
    | number q =>
      rw [rewrite_number lookup] at found
      cases found
    | symbol name =>
      rw [rewrite_symbol lookup] at found
      cases found
    | power b x =>
      rw [rewrite_power lookup] at found
      obtain ⟨base', changed_base, found⟩ := bind_eq_ok_iff.mp found
      obtain ⟨exponent', changed_exponent, found⟩ := bind_eq_ok_iff.mp found
      obtain ⟨base, exponent⟩ := closed.base_exponent member
      have left := below b base' (by simp only [size]; omega) base changed_base
      have right := below x exponent' (by simp only [size]; omega) exponent changed_exponent
      exact closed.power (rebuildPair_eq_some found) left right
    | sin a =>
      obtain ⟨a', changed, rfl⟩ := rewrite_argument_eq_some (rewrite_sin lookup) found
      have argument := closed.part member a (by simp [parts])
      exact closed.sine (below a a' (by simp only [size]; omega) argument changed)
    | cos a =>
      obtain ⟨a', changed, rfl⟩ := rewrite_argument_eq_some (rewrite_cos lookup) found
      have argument := closed.part member a (by simp [parts])
      exact closed.cosine (below a a' (by simp only [size]; omega) argument changed)
    | apply name a =>
      obtain ⟨a', changed, rfl⟩ := rewrite_argument_eq_some (rewrite_apply lookup) found
      have argument := closed.part member a (by simp [parts])
      exact closed.application member (below a a' (by simp only [size]; omega) argument changed)
termination_by e.size

theorem of_substitute {e r : Expr} (found : (substitute map e : Except Error Expr) = .ok r)
    (member : P e) : P r := by
  unfold substitute at found
  split at found
  · cases found
    exact member
  · obtain ⟨after, rewritten, found⟩ := bind_eq_ok_iff.mp found
    cases found
    refine of_part member fun r replaced => ?_
    rw [replaced] at rewritten
    exact closed.of_rewrite values rewritten member

end Expr.ClosedClass

end SymbolicAlgebra
