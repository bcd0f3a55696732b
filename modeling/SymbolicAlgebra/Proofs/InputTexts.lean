import SymbolicAlgebra.Proofs.Closure
import SymbolicAlgebra.Proofs.LegibleTexts
import SymbolicAlgebra.Proofs.Summands

namespace SymbolicAlgebra

open SymbolicAlgebra.Expr

theorem toList_parenthesized (precedence surroundings : Nat) (text : String) :
    (parenthesized precedence surroundings text).toList =
      if precedence < surroundings then '(' :: (text.toList ++ [')']) else text.toList := by
  unfold parenthesized
  split <;> simp

/-- The sign in front of a number or a coefficient. -/
def signText (q : Rat) : String :=
  if q < 0 then "-" else ""

theorem signText_of_neg {q : Rat} (negative : q < 0) : signText q = "-" :=
  if_pos negative

theorem signText_of_nonneg {q : Rat} (nonneg : 0 ≤ q) : signText q = "" :=
  if_neg (not_lt.mpr nonneg)

theorem abs_ne_neg_one (q : Rat) : |q| ≠ -1 := fun same =>
  absurd (abs_nonneg q) (by rw [same]; decide)

theorem numberText_eq (q : Rat) : numberText q = signText q ++ numberText |q| := by
  have integer : isInteger |q| = isInteger q := by
    rw [isInteger, isInteger, Rat.den_abs_eq_den]
  have numerator : toString q.num = signText q ++ toString |q|.num := by
    rw [Rat.num_abs_eq_abs_num]
    refine String.toList_injective ?_
    have natural : ¬ |q.num| < 0 := not_lt.mpr (abs_nonneg q.num)
    rw [String.toList_append, toList_toString_int, toList_toString_int, if_neg natural,
      Int.natAbs_abs]
    by_cases negative : q < 0
    · rw [signText_of_neg negative, if_pos (Rat.num_neg.mpr negative)]
      rfl
    · rw [signText_of_nonneg (not_lt.mp negative), if_neg (mt Rat.num_neg.mp negative)]
      rfl
  unfold numberText
  rw [integer, numerator, Rat.den_abs_eq_den]
  split
  · rfl
  · simp only [String.append_assoc]

theorem exists_digit_numberText {q : Rat} (nonneg : 0 ≤ q) :
    ∃ c rest, (numberText q).toList = c :: rest ∧ c.isDigit := by
  have natural : ¬ q.num < 0 := not_lt.mpr (Rat.num_nonneg.mpr nonneg)
  have numerator : (toString q.num).toList = q.num.natAbs.repr.toList := by
    rw [toList_toString_int, if_neg natural, List.nil_append]
  obtain ⟨c, digits, text⟩ := List.exists_cons_of_ne_nil (l := q.num.natAbs.repr.toList)
    (by simp [Nat.toList_repr])
  have digit : c.isDigit := isDigit_of_mem_repr (text ▸ List.mem_cons_self ..)
  by_cases integer : isInteger q = true
  · rw [numberText_of_integer integer, numerator, text]
    exact ⟨c, digits, rfl, digit⟩
  · rw [numberText_of_fraction integer, numerator, text]
    exact ⟨c, _, rfl, digit⟩

/-- A coefficient is its sign and its magnitude. -/
theorem coefficientText_eq (q : Rat) (factors : String) :
    coefficientText q factors = signText q ++ coefficientText |q| factors := by
  unfold coefficientText
  by_cases one : q = 1
  · subst one
    rw [signText_of_nonneg zero_le_one, abs_one, String.empty_append]
  by_cases minus : q = -1
  · subst minus
    rfl
  · have other : |q| ≠ 1 := fun same => (eq_or_eq_neg_of_abs_eq same).elim one minus
    rw [if_neg one, if_neg minus, if_neg other, if_neg (abs_ne_neg_one q), numberText_eq]
    simp only [String.append_assoc]

theorem toList_joinSummands (first : String) (later : List String) :
    (joinSummands (first :: later)).toList =
      first.toList ++ later.flatMap fun text => (laterSummand text).toList := by
  unfold joinSummands
  induction later generalizing first with
  | nil => simp
  | cons next others ih => simp [ih]

namespace Expr

/-- The text of a factor. Of these only sums need parentheses. -/
def factorText (e : Expr) : String :=
  parenthesized e.precedence 2 e.inputForm

/-- The text of a base or an exponent. -/
def operandText (e : Expr) : String :=
  parenthesized e.precedence 4 e.inputForm

theorem inputForm_power (b e : Expr) :
    (power b e).inputForm = b.operandText ++ "**" ++ e.operandText := by
  rw [inputForm]
  rfl

theorem factorText_ofFactor (b e : Expr) : (ofFactor (b, e)).factorText =
    if e.isOne then parenthesized b.precedence 2 b.inputForm
      else powerText b e b.inputForm e.inputForm := by
  unfold ofFactor
  split
  · rfl
  · rw [factorText, inputForm]
    rfl

theorem inputForm_product (q : Rat) (factors : List Factor) : (product q factors).inputForm =
    coefficientText q ("*".intercalate ((partsOf factors).map factorText)) := by
  have texts : (partsOf factors).map factorText = factors.attach.map fun factor =>
      if factor.1.2.isOne then parenthesized factor.1.1.precedence 2 factor.1.1.inputForm
        else powerText factor.1.1 factor.1.2 factor.1.1.inputForm factor.1.2.inputForm := by
    rw [partsOf, List.map_map, ← List.attach_map_val]
    exact List.map_congr_left fun factor _ => factorText_ofFactor factor.1.1 factor.1.2
  rw [inputForm, texts]

/-- The text of a sum joins those of its summands. What is no sum is its own summand. -/
theorem inputForm_eq_joinSummands (e : Expr) :
    e.inputForm = joinSummands ((summandsOf e).map inputForm) := by
  cases e with
  | sum constant terms =>
    rw [inputForm]
    simp [summandsOf]
  | _ => rfl

/-- What the text of an expression other than a sum multiplies, after its sign. -/
def unsignedFactors : Expr → List Expr
  | number q => [number |q|]
  | product q factors => (product |q| factors).operands
  | e => [e]

theorem unsignedFactors_product (q : Rat) (factors : List Factor) :
    (product q factors).unsignedFactors =
      (if |q| = 1 then [] else [number |q|]) ++ partsOf factors :=
  rfl

def unsignedText (e : Expr) : String :=
  "*".intercalate (e.unsignedFactors.map factorText)

theorem factorText_number {q : Rat} (nonneg : 0 ≤ q) : (number q).factorText = numberText q := by
  have natural : ¬ q.num < 0 := not_lt.mpr (Rat.num_nonneg.mpr nonneg)
  have tight : ¬ (number q).precedence < 2 := by
    simp only [precedence, if_neg natural]
    split <;> omega
  rw [factorText, parenthesized, if_neg tight, inputForm]

theorem unsignedText_number (q : Rat) : (number q).unsignedText = numberText |q| := by
  have text : (number |q|).factorText = numberText |q| := factorText_number (abs_nonneg q)
  simp [unsignedText, unsignedFactors, text]

theorem unsignedText_product {q : Rat} {factors : List Factor} (nonempty : factors ≠ []) :
    (product q factors).unsignedText =
      coefficientText |q| ("*".intercalate ((partsOf factors).map factorText)) := by
  obtain ⟨factor, factors, rfl⟩ := List.exists_cons_of_ne_nil nonempty
  rw [unsignedText, unsignedFactors_product, coefficientText, if_neg (abs_ne_neg_one q)]
  by_cases one : |q| = 1
  · rw [if_pos one, if_pos one]
    rfl
  · rw [if_neg one, if_neg one]
    simp [partsOf, factorText_number (abs_nonneg q), String.append_assoc]

/-- The text of an expression other than a sum is its sign and what it multiplies. -/
theorem inputForm_of_not_sum {e : Expr} (canonical : e.Canonical)
    (not_sum : ∀ constant terms, e ≠ sum constant terms) :
    e.inputForm = signText e.coefficientPart ++ e.unsignedText := by
  have single (alone : e.unsignedFactors = [e]) (tight : ¬ e.precedence < 2)
      (one : e.coefficientPart = 1) :
      e.inputForm = signText e.coefficientPart ++ e.unsignedText := by
    rw [one, signText_of_nonneg zero_le_one, unsignedText, alone, String.empty_append,
      List.map_singleton, String.intercalate_singleton, factorText, parenthesized, if_neg tight]
  cases e with
  | number q =>
    rw [inputForm, unsignedText_number]
    exact numberText_eq q
  | sum constant terms => exact absurd rfl (not_sum constant terms)
  | product q factors =>
    obtain ⟨_, _, kept⟩ := canonical_product_iff.mp canonical
    rw [inputForm_product, unsignedText_product kept.nonempty]
    exact coefficientText_eq q _
  | _ => exact single rfl (by simp [precedence]) rfl

/-- A factor after the first, with the sign of multiplication before it. -/
def nextFactor (e : Expr) : List Char :=
  '*' :: e.factorText.toList

theorem toList_unsignedText {e first : Expr} {later : List Expr}
    (shown : e.unsignedFactors = first :: later) :
    e.unsignedText.toList = first.factorText.toList ++ later.flatMap nextFactor := by
  rw [unsignedText, shown, List.map_cons, String.toList_intercalate, List.map_cons,
    intercalate_cons, List.map_map, List.flatMap_map]
  rfl

/-- A summand after the first, with its sign as the sign of the sum. -/
def nextSummand (e : Expr) : List Char :=
  ' ' :: (if e.coefficientPart < 0 then '-' else '+') :: ' ' :: e.unsignedText.toList

/-- Only a summand with a sign of its own starts with one. -/
theorem toList_laterSummand {e : Expr} (canonical : e.Canonical)
    (not_sum : ∀ constant terms, e ≠ sum constant terms)
    (unsigned : ∀ rest, e.unsignedText.toList ≠ '-' :: rest) :
    (laterSummand e.inputForm).toList = nextSummand e := by
  have text := congrArg String.toList (inputForm_of_not_sum canonical not_sum)
  unfold laterSummand nextSummand
  by_cases negative : e.coefficientPart < 0
  · rw [signText_of_neg negative, String.toList_append] at text
    have signed : e.inputForm.toList = '-' :: e.unsignedText.toList := text
    rw [signed, if_pos negative]
    simp
  · rw [signText_of_nonneg (not_lt.mp negative), String.empty_append] at text
    rw [if_neg negative]
    split
    · rename_i rest start
      exact absurd (text.symm.trans start) (unsigned rest)
    · rw [String.toList_append, text]
      rfl

/-- What the text of an expression without operators starts with, up to the first bracket. -/
def head : Expr → String
  | number q => numberText q
  | symbol name => name
  | sin _ => "sin"
  | cos _ => "cos"
  | apply name _ => name
  | derivative _ _ => "D"
  | _ => ""

/-- The variables that the text lists in brackets. -/
def variables? : Expr → Option (List String)
  | derivative _ names => some names
  | _ => none

/-- What stands in the parentheses after the head. -/
def argument? : Expr → Option Expr
  | sin a => some a
  | cos a => some a
  | apply _ a => some a
  | derivative a _ => some a
  | _ => none

/-- The text has no operator outside of parentheses. -/
def IsAtomic : Expr → Prop
  | number q => 0 ≤ q
  | sum _ _ => False
  | product _ _ => False
  | power _ _ => False
  | _ => True

def bracketed (names : Option (List String)) (rest : List Char) : List Char :=
  match names with
  | none => rest
  | some names => '[' :: ((", ".intercalate names).toList ++ ']' :: rest)

def enclosed (argument : Option Expr) (rest : List Char) : List Char :=
  match argument with
  | none => rest
  | some a => '(' :: (a.inputForm.toList ++ ')' :: rest)

theorem toList_inputForm_of_isAtomic {e : Expr} (atomic : e.IsAtomic) (rest : List Char) :
    e.inputForm.toList ++ rest =
      e.head.toList ++ bracketed e.variables? (enclosed e.argument? rest) := by
  cases e with
  | sum constant terms => exact absurd atomic id
  | product q factors => exact absurd atomic id
  | power b x => exact absurd atomic id
  | _ =>
    rw [inputForm]
    simp [head, variables?, argument?, bracketed, enclosed]

theorem size_argument_lt {e a : Expr} (argument : e.argument? = some a) : a.size < e.size := by
  cases e <;> cases argument <;> simp only [size] <;> omega

/-- The ways to write an operand inside of an expression whose size is the bound. What stands in
parentheses is smaller than the whole. -/
inductive Written (bound : Nat) : Expr → List Char → Prop where
  | bare {e} (atomic : e.IsAtomic) (within : e.size ≤ bound) : Written bound e e.inputForm.toList
  | grouped {e} (within : e.size < bound) : Written bound e ('(' :: (e.inputForm.toList ++ [')']))

/-- A factor is an operand or a power of operands. -/
inductive WrittenFactor (bound : Nat) : Expr → List Char → Prop where
  | operand {e text} (written : Written bound e text) : WrittenFactor bound e text
  | power {b x base exponent} (base_written : Written bound b base)
      (exponent_written : Written bound x exponent) :
      WrittenFactor bound (power b x) (base ++ '*' :: '*' :: exponent)

theorem written_operandText {e : Expr} {bound : Nat} (within : e.size < bound) :
    Written bound e e.operandText.toList := by
  rw [operandText, toList_parenthesized]
  split
  · exact .grouped within
  · rename_i tight
    refine .bare ?_ within.le
    cases e with
    | number q =>
      refine Rat.num_nonneg.mp (not_lt.mp fun negative => tight ?_)
      simp only [precedence, negative, if_true]
      split <;> omega
    | sum constant terms => exact absurd (by decide : 1 < 4) tight
    | product q factors => exact absurd (by decide : 2 < 4) tight
    | power b x => exact absurd (by decide : 3 < 4) tight
    | _ => trivial

theorem writtenFactor_power {b x : Expr} {bound : Nat} (within : (power b x).size ≤ bound) :
    WrittenFactor bound (power b x) (power b x).factorText.toList := by
  have loose : ¬ (power b x).precedence < 2 := by simp [precedence]
  rw [factorText, parenthesized, if_neg loose, inputForm_power]
  simp only [size] at within
  simpa using WrittenFactor.power (written_operandText (e := b) (by omega))
    (written_operandText (e := x) (by omega))

theorem writtenFactor_of_isAtomic {e : Expr} {bound : Nat} (atomic : e.IsAtomic)
    (within : e.size ≤ bound) : WrittenFactor bound e e.factorText.toList := by
  have bare : e.factorText = e.inputForm := by
    cases e with
    | number q => rw [factorText_number atomic, inputForm]
    | sum constant terms => exact absurd atomic id
    | product q factors => exact absurd atomic id
    | power b x => exact absurd atomic id
    | _ => rfl
  rw [bare]
  exact .operand (.bare atomic within)

theorem writtenFactor_ofFactor {b x : Expr} {bound : Nat} (factor : CanonicalFactor b x)
    (within : (ofFactor (b, x)).size < bound) :
    WrittenFactor bound (ofFactor (b, x)) (ofFactor (b, x)).factorText.toList := by
  rcases canonicalFactor_iff.mp factor with ⟨rfl, free⟩ | powered
  · have whole : ofFactor (b, number 1) = b := rfl
    rw [whole] at within ⊢
    cases b with
    | number q => exact absurd rfl free
    | product q factors => exact absurd rfl free
    | power c y => exact absurd rfl free
    | sum constant terms =>
      rw [factorText, toList_parenthesized, if_pos (by simp [precedence])]
      exact .operand (.grouped within)
    | _ => exact writtenFactor_of_isAtomic trivial within.le
  · rw [ofFactor_of_canonicalPower powered] at within ⊢
    exact writtenFactor_power within.le

/-- Every factor that an expression other than a sum shows is written as one. -/
theorem writtenFactor_of_mem {e o : Expr} {bound : Nat} (canonical : e.Canonical)
    (not_sum : ∀ constant terms, e ≠ sum constant terms) (within : e.size ≤ bound)
    (member : o ∈ e.unsignedFactors) : WrittenFactor bound o o.factorText.toList := by
  have magnitude (q : Rat) : WrittenFactor bound (number |q|) (number |q|).factorText.toList :=
    writtenFactor_of_isAtomic (abs_nonneg q) (e.size_pos.trans_le within)
  cases e with
  | number q =>
    cases List.mem_singleton.mp member
    exact magnitude q
  | sum constant terms => exact absurd rfl (not_sum constant terms)
  | product q factors =>
    rcases List.mem_append.mp member with inside | inside
    · split at inside
      · cases inside
      · cases List.mem_singleton.mp inside
        exact magnitude q
    · have smaller := size_part_lt inside
      obtain ⟨⟨b, x⟩, stored, rfl⟩ := List.mem_map.mp inside
      simp only [size] at within
      exact writtenFactor_ofFactor
        ((canonical_product_iff.mp canonical).2.2.factor b x stored) (by omega)
  | power b x =>
    cases List.mem_singleton.mp member
    exact writtenFactor_power within
  | _ =>
    cases List.mem_singleton.mp member
    exact writtenFactor_of_isAtomic trivial within

end Expr

end SymbolicAlgebra
