import SymbolicAlgebra.Proofs.InputTexts
import SymbolicAlgebra.Proofs.Rebuilding

namespace SymbolicAlgebra

open SymbolicAlgebra.Expr

/-- The names that the functions with nodes of their own have in the input form. -/
def callNames : List String :=
  ["sin", "cos"]

namespace Expr

/-- The node with this head, with these variables and this argument. -/
def ofCall (head : String) (names : Option (List String)) (a : Expr) : Expr :=
  match names with
  | some names => derivative a names
  | none => if head = "sin" then sin a else if head = "cos" then cos a else apply head a

/-- What the text multiplies is the expression but for its sign. -/
theorem productOf_unsignedFactors {e : Expr} (canonical : e.Canonical) :
    (productOf e.unsignedFactors : Except Error Expr) =
      .ok (if e.coefficientPart < 0 then e.negate else e) := by
  have coefficient : collectCoefficient e.unsignedFactors = |e.coefficientPart| := by
    cases e with
    | number q => exact mul_one |q|
    | product q factors =>
      obtain ⟨_, _, kept⟩ := canonical_product_iff.mp canonical
      change collectCoefficient (coefficientOperands |q| ++ partsOf factors) = |q|
      rw [collectCoefficient_append, collectCoefficient_coefficientOperands,
        collectCoefficient_partsOf kept.factor, mul_one]
    | _ => exact (mul_one 1).trans abs_one.symm
  have parts : e.unsignedFactors.flatMap factorPart = e.factorPart := by
    cases e with
    | product q factors =>
      obtain ⟨_, _, kept⟩ := canonical_product_iff.mp canonical
      change (coefficientOperands |q| ++ partsOf factors).flatMap factorPart = factors
      rw [List.flatMap_append, factorParts_coefficientOperands, List.nil_append,
        flatMap_factorPart_partsOf kept.factor]
    | _ => rfl
  split
  · rename_i negative
    refine productOf_eq_scale canonical ?_ parts
    rw [coefficient, abs_of_neg negative, neg_one_mul]
  · rename_i nonneg
    rw [← scale_one e]
    refine productOf_eq_scale (canonical.scale 1) ?_ ?_
    · rw [scale_one, coefficient, abs_of_nonneg (not_lt.mp nonneg), one_mul]
    · rw [scale_one, parts]

namespace Readable

variable {e : Expr} (readable : e.Readable callNames)

include readable

theorem argument {a : Expr} (argument : e.argument? = some a) : a.Readable callNames := by
  have member : a ∈ e.operands := by
    cases e <;> cases argument <;> exact List.mem_singleton_self _
  exact ⟨canonical_operands readable.canonical a member, named_operands readable.named a member⟩

theorem unsignedFactor {o : Expr} (member : o ∈ e.unsignedFactors) : o.Readable callNames := by
  obtain ⟨canonical, named⟩ := readable
  cases named with
  | number q =>
    cases List.mem_singleton.mp member
    exact ⟨canonical_number _, .number _⟩
  | @product q factors bases exponents =>
    refine ⟨?_, named_operands (.product bases exponents) o member⟩
    obtain ⟨_, _, kept⟩ := canonical_product_iff.mp canonical
    rcases List.mem_append.mp member with inside | inside
    · split at inside
      · cases inside
      · cases List.mem_singleton.mp inside
        exact canonical_number _
    · exact canonical_partsOf kept.factor kept.bases_canonical kept.exponents_canonical o inside
  | _ =>
    cases List.mem_singleton.mp member
    exact ⟨canonical, by constructor <;> assumption⟩

theorem summand {s : Expr} (member : s ∈ summandsOf e) : s.Readable callNames := by
  refine ⟨canonical_summandsOf readable.canonical s member, ?_⟩
  rcases mem_summandsOf_cases member with ⟨c, terms, rfl, inside⟩ | ⟨_, rfl⟩
  · exact named_operands readable.named s inside
  · exact readable.named

/-- A call can be built again from what its text shows. -/
theorem ofCall_argument {a : Expr} (argument : e.argument? = some a) :
    ofCall e.head e.variables? a = e := by
  cases readable.named with
  | @apply name a allowed inner =>
    cases argument
    obtain ⟨not_sin, not_cos⟩ : name ≠ "sin" ∧ name ≠ "cos" := by
      simpa [callNames] using allowed.2
    simp only [ofCall, head, variables?, not_sin, not_cos, if_false]
  | _ => cases argument <;> rfl

theorem head_parts : ∀ c ∈ e.head.toList, isLabelPart c := by
  intro c member
  cases readable.named with
  | number q => exact isLabelPart_of_number member
  | symbol allowed => exact isLabelPart_of_word allowed member
  | apply allowed argument => exact isLabelPart_of_word allowed.1 member
  | sin argument => exact isLabelPart_of_word (by decide : isWord "sin") member
  | cos argument => exact isLabelPart_of_word (by decide : isWord "cos") member
  | derivative allowed target => exact isLabelPart_of_word (by decide : isWord "D") member
  | _ => cases member

theorem leafText_head (atomic : e.IsAtomic) (leaf : e.argument? = none) : LeafText e e.head := by
  cases readable.named with
  | number q => exact .number q
  | symbol allowed => exact .symbol allowed
  | sum each => exact absurd atomic id
  | product bases exponents => exact absurd atomic id
  | power base exponent => exact absurd atomic id
  | _ => cases leaf

/-- An expression without operators starts with a letter or a digit. -/
theorem exists_head (atomic : e.IsAtomic) :
    ∃ c rest, e.head.toList = c :: rest ∧ isWordPart c := by
  have of_word {name : String} (word : isWord name) :
      ∃ c rest, name.toList = c :: rest ∧ isWordPart c := by
    obtain ⟨first, rest, text, letter, _⟩ := exists_of_isWord word
    exact ⟨first, rest, text, by simp [isWordPart, letter]⟩
  cases readable.named with
  | number q =>
    obtain ⟨c, rest, text, digit⟩ := exists_digit_numberText atomic
    exact ⟨c, rest, text, by simp [isWordPart, digit]⟩
  | symbol allowed => exact of_word allowed
  | apply allowed argument => exact of_word allowed.1
  | sin argument => exact of_word (by decide : isWord "sin")
  | cos argument => exact of_word (by decide : isWord "cos")
  | derivative allowed target => exact of_word (by decide : isWord "D")
  | _ => exact absurd atomic id

end Readable

/-- The input form shows which expression it is of, and where it ends if it is not over but closed
by a parenthesis. -/
def LegibleInput (e : Expr) : Prop :=
  Legible (fun a => a.inputForm.toList) (Expr.Readable callNames) (Ends [')']) e

end Expr

/-- What may follow an operand of a power, a factor or a summand. -/
def operandMarks : List Char :=
  ['*', ' ', ')']

theorem legible_word {name : String} (word : isWord name) :
    Legible String.toList (isWord · = true) (Ends [',', ']']) name := by
  intro other rest rest' word' ends ends' same
  have stops {text : List Char} (ends : Ends [',', ']'] text) :
      ∀ c ∈ text.head?, ¬ isWordPart c := by
    intro c member
    rcases List.mem_pair.mp (ends c member) with rfl | rfl <;> decide
  obtain ⟨names, rests⟩ := append_inj_of_forall (fun _ => isWordPart_of_mem word)
    (fun _ => isWordPart_of_mem word') (stops ends) (stops ends') same
  exact ⟨String.toList_injective names, rests⟩

theorem separated_words : Separated (fun name : String => [',', ' '] ++ name.toList)
    (isWord · = true) (Ends [',', ']']) (Ends [']']) where
  goes_on _ _ _ := by simp
  goes_no_further _ _ _ := by simp
  stops_ends _ ends := ends.mono (List.subset_cons_self _ _)

/-- The variables of a derivative, and where they end, can be seen from the text. -/
theorem bracketed_inj {left right : Option (List String)} {rest rest' : List Char}
    (words : ∀ names ∈ left, names ≠ [] ∧ ∀ name ∈ names, isWord name)
    (words' : ∀ names ∈ right, names ≠ [] ∧ ∀ name ∈ names, isWord name)
    (ends : Ends ('(' :: operandMarks) rest) (ends' : Ends ('(' :: operandMarks) rest')
    (same : bracketed left rest = bracketed right rest') : left = right ∧ rest = rest' := by
  have no_bracket {text tail : List Char} (ends : Ends ('(' :: operandMarks) text) :
      text ≠ '[' :: tail := by
    rintro rfl
    exact absurd (ends_cons.mp ends) (by decide)
  cases left with
  | none =>
    cases right with
    | none => exact ⟨rfl, same⟩
    | some others => exact absurd same (no_bracket ends)
  | some names =>
    cases right with
    | none => exact absurd same.symm (no_bracket ends')
    | some others =>
      obtain ⟨nonempty, each⟩ := words names rfl
      obtain ⟨nonempty', each'⟩ := words' others rfl
      obtain ⟨name, names, rfl⟩ := List.exists_cons_of_ne_nil nonempty
      obtain ⟨other, others, rfl⟩ := List.exists_cons_of_ne_nil nonempty'
      obtain ⟨first, later⟩ := List.forall_mem_cons.mp each
      have text (name : String) (names : List String) (tail : List Char) :
          (", ".intercalate (name :: names)).toList ++ ']' :: tail = name.toList ++
            (names.flatMap (fun name => [',', ' '] ++ name.toList) ++ ']' :: tail) := by
        simp [String.toList_intercalate, intercalate_cons, List.flatMap_map]
      have stops (tail : List Char) : Ends [']'] (']' :: tail) := by simp
      have texts := (List.cons.inj same).2
      rw [text, text] at texts
      obtain ⟨equal, rests⟩ := separated_words.inj (legible_word first)
        (fun n member => (legible_word (later n member)).after _) later each' (stops rest)
        (stops rest') texts
      exact ⟨congrArg some equal, (List.cons.inj rests).2⟩

/-- What stands in parentheses, and where it ends, can be seen from the text. -/
theorem enclosed_inj {left right : Option Expr} {rest rest' : List Char}
    (legible : ∀ a ∈ left, a.LegibleInput) (readable : ∀ a ∈ right, a.Readable callNames)
    (ends : Ends operandMarks rest) (ends' : Ends operandMarks rest')
    (same : enclosed left rest = enclosed right rest') : left = right ∧ rest = rest' := by
  have no_parenthesis {text tail : List Char} (ends : Ends operandMarks text) :
      text ≠ '(' :: tail := by
    rintro rfl
    exact absurd (ends_cons.mp ends) (by decide)
  cases left with
  | none =>
    cases right with
    | none => exact ⟨rfl, same⟩
    | some b => exact absurd same (no_parenthesis ends)
  | some a =>
    cases right with
    | none => exact absurd same.symm (no_parenthesis ends')
    | some b =>
      obtain ⟨rfl, rests⟩ := legible a rfl (readable b rfl) (by simp) (by simp)
        (List.cons.inj same).2
      exact ⟨rfl, (List.cons.inj rests).2⟩

theorem ends_enclosed {rest : List Char} (ends : Ends operandMarks rest) (argument : Option Expr) :
    Ends ('(' :: operandMarks) (enclosed argument rest) := by
  cases argument with
  | none => exact ends.mono (List.subset_cons_self _ _)
  | some a => exact ends_cons.mpr (List.mem_cons_self ..)

theorem ends_bracketed {rest : List Char} (ends : Ends ('(' :: operandMarks) rest)
    (names : Option (List String)) : Ends ('[' :: '(' :: operandMarks) (bracketed names rest) := by
  cases names with
  | none => exact ends.mono (List.subset_cons_self _ _)
  | some names => exact ends_cons.mpr (List.mem_cons_self ..)

theorem not_isLabelPart_of_ends {rest : List Char} (ends : Ends ('[' :: '(' :: operandMarks) rest) :
    ∀ c ∈ rest.head?, ¬ isLabelPart c := by
  intro c member
  have marks := ends c member
  simp only [operandMarks, List.mem_cons, List.not_mem_nil, or_false] at marks
  rcases marks with rfl | rfl | rfl | rfl | rfl <;> decide

theorem Expr.Readable.variables {e : Expr} (readable : e.Readable callNames) :
    ∀ names ∈ e.variables?, names ≠ [] ∧ ∀ name ∈ names, isWord name := by
  intro names listed
  cases readable.named with
  | derivative allowed target =>
    cases listed
    cases readable.canonical with
    | derivative form _ => exact ⟨form, allowed⟩
  | _ => cases listed

/-- Head, variables and argument are told apart by the brackets between them. -/
theorem legible_of_isAtomic {a : Expr} (readable : a.Readable callNames) (atomic : a.IsAtomic)
    (legible : ∀ x ∈ a.argument?, x.LegibleInput) :
    Legible (fun e => e.inputForm.toList) (fun b => b.Readable callNames ∧ b.IsAtomic)
      (Ends operandMarks) a := by
  rintro b rest rest' ⟨readable_b, atomic_b⟩ ends ends' same
  dsimp only at same
  rw [toList_inputForm_of_isAtomic atomic, toList_inputForm_of_isAtomic atomic_b] at same
  have ends_argument := ends_enclosed ends a.argument?
  have ends_argument' := ends_enclosed ends' b.argument?
  obtain ⟨heads, texts⟩ := append_inj_of_forall readable.head_parts readable_b.head_parts
    (not_isLabelPart_of_ends (ends_bracketed ends_argument a.variables?))
    (not_isLabelPart_of_ends (ends_bracketed ends_argument' b.variables?)) same
  obtain ⟨names, texts⟩ :=
    bracketed_inj readable.variables readable_b.variables ends_argument ends_argument' texts
  obtain ⟨arguments, rests⟩ :=
    enclosed_inj legible (fun x argument => readable_b.argument argument) ends ends' texts
  refine ⟨?_, rests⟩
  have heads := String.toList_injective heads
  cases argument : a.argument? with
  | none =>
    have argument' : b.argument? = none := arguments ▸ argument
    exact (readable.leafText_head atomic argument).inj
      (readable_b.leafText_head atomic_b argument') heads
  | some x =>
    have argument' : b.argument? = some x := arguments ▸ argument
    rw [← readable.ofCall_argument argument, ← readable_b.ofCall_argument argument', heads, names]

/-- What may follow a factor: another one, but no exponent. -/
structure EndsFactor (rest : List Char) : Prop where
  marks : Ends operandMarks rest
  no_exponent : ∀ exponent, rest ≠ '*' :: '*' :: exponent

/-- What may follow a summand. -/
def summandMarks : List Char :=
  [' ', ')']

theorem endsFactor_of_ends {rest : List Char} (ends : Ends summandMarks rest) :
    EndsFactor rest where
  marks := ends.mono (List.subset_cons_self _ _)
  no_exponent := by
    rintro exponent rfl
    exact absurd (ends_cons.mp ends) (by decide)

theorem endsFactor_star {c : Char} (other : c ≠ '*') (rest : List Char) :
    EndsFactor ('*' :: c :: rest) where
  marks := ends_cons.mpr (List.mem_cons_self ..)
  no_exponent := by
    rintro exponent ⟨⟩
    exact other rfl

theorem Expr.Readable.of_power {b x : Expr} (readable : (power b x).Readable callNames) :
    b.Readable callNames ∧ x.Readable callNames := by
  have operand : ∀ o ∈ [b, x], o.Readable callNames := fun o member =>
    ⟨canonical_operands readable.canonical o member, named_operands readable.named o member⟩
  exact ⟨operand b (by simp), operand x (by simp)⟩

/-- One of the expressions that the text of a sum adds up. -/
structure IsSummand (e : Expr) : Prop where
  readable : e.Readable callNames
  not_sum : ∀ constant terms, e ≠ sum constant terms

/-- A summand is its sign and what its text multiplies. -/
theorem IsSummand.ext {a b : Expr} (left : IsSummand a) (right : IsSummand b)
    (signs : a.coefficientPart < 0 ↔ b.coefficientPart < 0)
    (factors : a.unsignedFactors = b.unsignedFactors) : a = b := by
  have product := productOf_unsignedFactors left.readable.canonical
  rw [factors, productOf_unsignedFactors right.readable.canonical] at product
  have same := Except.ok.inj product
  by_cases negative : a.coefficientPart < 0
  · rw [if_pos negative, if_pos (signs.mp negative)] at same
    have back (e : Expr) (canonical : e.Canonical) : e.negate.negate = e := by
      rw [negate, negate, scale_scale (-1) (-1) canonical, neg_mul_neg, one_mul, scale_one]
    rw [← back a left.readable.canonical, ← same, back b right.readable.canonical]
  · rw [if_neg negative, if_neg (mt signs.mpr negative)] at same
    exact same.symm

theorem IsSummand.toList_inputForm {e : Expr} (summand : IsSummand e) : e.inputForm.toList =
    (if e.coefficientPart < 0 then ['-'] else []) ++ e.unsignedText.toList := by
  rw [inputForm_of_not_sum summand.readable.canonical summand.not_sum, String.toList_append]
  split
  · rename_i negative
    rw [signText_of_neg negative]
    rfl
  · rename_i nonneg
    rw [signText_of_nonneg (not_lt.mp nonneg)]
    rfl

theorem IsSummand.unsignedFactors_ne_nil {e : Expr} (summand : IsSummand e) :
    e.unsignedFactors ≠ [] := by
  cases summand.readable.canonical with
  | product form bases exponents =>
    exact List.append_ne_nil_of_right_ne_nil _ (mt List.map_eq_nil_iff.mp form.nonempty)
  | _ => exact List.cons_ne_nil _ _

section Bounded

variable {bound other : Nat}

/-- The first character of an operand. -/
def isOperandStart (c : Char) : Bool :=
  isWordPart c || c == '('

theorem exists_written {e : Expr} {s : List Char} (written : Written bound e s)
    (readable : e.Readable callNames) : ∃ c rest, s = c :: rest ∧ isOperandStart c := by
  cases written with
  | bare atomic within =>
    obtain ⟨c, word, text, part⟩ := readable.exists_head atomic
    have start := toList_inputForm_of_isAtomic atomic []
    rw [List.append_nil, text] at start
    exact ⟨c, _, start, Bool.or_eq_true_iff.mpr (.inl part)⟩
  | grouped within => exact ⟨'(', _, rfl, rfl⟩

theorem exists_writtenFactor {e : Expr} {s : List Char} (written : WrittenFactor bound e s)
    (readable : e.Readable callNames) : ∃ c rest, s = c :: rest ∧ isOperandStart c := by
  cases written with
  | operand written => exact exists_written written readable
  | power base_written exponent_written =>
    obtain ⟨c, rest, rfl, start⟩ := exists_written base_written readable.of_power.1
    exact ⟨c, _, rfl, start⟩

/-- A factor in the text of an expression whose size is at most the bound. -/
structure IsShownFactor (bound : Nat) (e : Expr) : Prop where
  readable : e.Readable callNames
  written : WrittenFactor bound e e.factorText.toList

theorem IsSummand.isShownFactor {e o : Expr} (summand : IsSummand e) (within : e.size ≤ bound)
    (member : o ∈ e.unsignedFactors) : IsShownFactor bound o where
  readable := summand.readable.unsignedFactor member
  written := writtenFactor_of_mem summand.readable.canonical summand.not_sum within member

theorem separated_factors : Separated nextFactor (fun e => ∃ size, IsShownFactor size e) EndsFactor
    (Ends summandMarks) where
  goes_on e rest shown := by
    obtain ⟨size, shown⟩ := shown
    obtain ⟨c, later, text, start⟩ := exists_writtenFactor shown.written shown.readable
    rw [nextFactor, text]
    refine endsFactor_star ?_ _
    rintro rfl
    exact absurd start (by decide)
  goes_no_further e rest _ := by
    rw [nextFactor, List.cons_append, ends_cons]
    decide
  stops_ends _ := endsFactor_of_ends

theorem separated_summands :
    Separated nextSummand IsSummand (Ends summandMarks) (Ends [')']) where
  goes_on _ _ _ := ends_cons.mpr (List.mem_cons_self ..)
  goes_no_further _ _ _ ends := absurd (ends_cons.mp ends) (by decide)
  stops_ends _ ends := ends.mono (List.subset_cons_self _ _)

/-- Without its sign a summand starts with none. -/
theorem IsSummand.unsigned {e : Expr} (summand : IsSummand e) (tail text : List Char) :
    e.unsignedText.toList ++ tail ≠ '-' :: text := by
  obtain ⟨first, later, factors⟩ := List.exists_cons_of_ne_nil summand.unsignedFactors_ne_nil
  have shown := summand.isShownFactor le_rfl (factors ▸ List.mem_cons_self ..)
  obtain ⟨c, rest, start, part⟩ := exists_writtenFactor shown.written shown.readable
  rw [toList_unsignedText factors, start]
  rintro ⟨⟩
  exact absurd part (by decide)

variable
  (smaller : ∀ e : Expr, e.Readable callNames → e.size < bound → e.LegibleInput)

include smaller

theorem written_inj {a b : Expr} {s t rest rest' : List Char} (left : Written bound a s)
    (right : Written other b t) (readable_a : a.Readable callNames)
    (readable_b : b.Readable callNames) (ends : Ends operandMarks rest)
    (ends' : Ends operandMarks rest') (same : s ++ rest = t ++ rest') : a = b ∧ rest = rest' := by
  have not_grouped {e : Expr} {text tail : List Char} (readable : e.Readable callNames)
      (atomic : e.IsAtomic) : e.inputForm.toList ++ text ≠ '(' :: tail := by
    obtain ⟨c, word, text', part⟩ := readable.exists_head atomic
    rw [toList_inputForm_of_isAtomic atomic, text']
    rintro ⟨⟩
    exact absurd part (by decide)
  cases left with
  | bare atomic within =>
    cases right with
    | bare atomic_b _ =>
      refine legible_of_isAtomic readable_a atomic (fun x argument => ?_) ⟨readable_b, atomic_b⟩
        ends ends' same
      have lighter := size_argument_lt argument
      exact smaller x (readable_a.argument argument) (by omega)
    | grouped _ => exact absurd same (not_grouped readable_a atomic)
  | grouped within =>
    cases right with
    | bare atomic_b _ => exact absurd same.symm (not_grouped readable_b atomic_b)
    | grouped _ =>
      have texts : a.inputForm.toList ++ ')' :: rest = b.inputForm.toList ++ ')' :: rest' := by
        simpa using same
      obtain ⟨rfl, rests⟩ := smaller a readable_a within readable_b (by simp) (by simp) texts
      exact ⟨rfl, (List.cons.inj rests).2⟩

theorem writtenFactor_inj {a b : Expr} {s t rest rest' : List Char}
    (left : WrittenFactor bound a s) (right : WrittenFactor other b t)
    (readable_a : a.Readable callNames) (readable_b : b.Readable callNames)
    (ends : EndsFactor rest) (ends' : EndsFactor rest') (same : s ++ rest = t ++ rest') :
    a = b ∧ rest = rest' := by
  have star (tail : List Char) : Ends operandMarks ('*' :: tail) :=
    ends_cons.mpr (List.mem_cons_self ..)
  -- Both texts start with an operand. An exponent follows in both or in neither.
  cases left with
  | operand written =>
    cases right with
    | operand written_b =>
      exact written_inj smaller written written_b readable_a readable_b ends.marks ends'.marks same
    | power base_written exponent_written =>
      rw [List.append_assoc] at same
      obtain ⟨_, rests⟩ := written_inj smaller written base_written readable_a
        readable_b.of_power.1 ends.marks (star _) same
      exact absurd rests (ends.no_exponent _)
  | power base_written exponent_written =>
    obtain ⟨base, exponent⟩ := readable_a.of_power
    rw [List.append_assoc] at same
    cases right with
    | operand written_b =>
      obtain ⟨_, rests⟩ := written_inj smaller base_written written_b base readable_b (star _)
        ends'.marks same
      exact absurd rests.symm (ends'.no_exponent _)
    | power base_written' exponent_written' =>
      obtain ⟨base', exponent'⟩ := readable_b.of_power
      rw [List.append_assoc] at same
      obtain ⟨rfl, texts⟩ := written_inj smaller base_written base_written' base base' (star _)
        (star _) same
      obtain ⟨rfl, rests⟩ := written_inj smaller exponent_written exponent_written' exponent
        exponent' ends.marks ends'.marks (List.cons.inj (List.cons.inj texts).2).2
      exact ⟨rfl, rests⟩

theorem legible_factor {a : Expr} (shown : IsShownFactor bound a) :
    Legible (fun e => e.factorText.toList) (fun e => ∃ size, IsShownFactor size e) EndsFactor a := by
  rintro b rest rest' ⟨size, shown_b⟩ ends ends' same
  exact writtenFactor_inj smaller shown.written shown_b.written shown.readable shown_b.readable
    ends ends' same

/-- What a summand multiplies, and where it ends, can be seen from the text. -/
theorem unsignedFactors_inj {a b : Expr} {rest rest' : List Char} (left : IsSummand a)
    (right : IsSummand b) (within : a.size ≤ bound) (ends : Ends summandMarks rest)
    (ends' : Ends summandMarks rest')
    (same : a.unsignedText.toList ++ rest = b.unsignedText.toList ++ rest') :
    a.unsignedFactors = b.unsignedFactors ∧ rest = rest' := by
  have shown_a (o : Expr) := left.isShownFactor within (o := o)
  have shown_b (o : Expr) := right.isShownFactor le_rfl (o := o)
  obtain ⟨f, fs, factors⟩ := List.exists_cons_of_ne_nil left.unsignedFactors_ne_nil
  obtain ⟨g, gs, factors'⟩ := List.exists_cons_of_ne_nil right.unsignedFactors_ne_nil
  rw [factors] at shown_a ⊢
  rw [factors'] at shown_b ⊢
  rw [toList_unsignedText factors, toList_unsignedText factors', List.append_assoc,
    List.append_assoc] at same
  obtain ⟨first, later⟩ := List.forall_mem_cons.mp shown_a
  exact separated_factors.inj (legible_factor smaller first)
    (fun o member => (legible_factor smaller (later o member)).after ['*'])
    (fun o member => ⟨_, later o member⟩) (fun o member => ⟨_, shown_b o member⟩) ends ends' same

theorem summand_inj {a b : Expr} {rest rest' : List Char} (left : IsSummand a)
    (right : IsSummand b) (within : a.size ≤ bound) (ends : Ends summandMarks rest)
    (ends' : Ends summandMarks rest') (signs : a.coefficientPart < 0 ↔ b.coefficientPart < 0)
    (same : a.unsignedText.toList ++ rest = b.unsignedText.toList ++ rest') :
    a = b ∧ rest = rest' := by
  obtain ⟨factors, rests⟩ := unsignedFactors_inj smaller left right within ends ends' same
  exact ⟨left.ext right signs factors, rests⟩

theorem legible_summand {a : Expr} (summand : IsSummand a) (within : a.size ≤ bound) :
    Legible (fun e => e.inputForm.toList) IsSummand (Ends summandMarks) a := by
  intro b rest rest' summand_b ends ends' same
  dsimp only at same
  rw [summand.toList_inputForm, summand_b.toList_inputForm] at same
  -- Only the sign of a coefficient is a minus sign at the start, so the signs agree.
  by_cases negative : a.coefficientPart < 0
  · rw [if_pos negative] at same
    by_cases negative_b : b.coefficientPart < 0
    · rw [if_pos negative_b] at same
      exact summand_inj smaller summand summand_b within ends ends' (by simp [negative, negative_b])
        (List.cons.inj same).2
    · rw [if_neg negative_b] at same
      exact absurd same.symm (summand_b.unsigned _ _)
  · rw [if_neg negative] at same
    by_cases negative_b : b.coefficientPart < 0
    · rw [if_pos negative_b] at same
      exact absurd same (summand.unsigned _ _)
    · rw [if_neg negative_b] at same
      exact summand_inj smaller summand summand_b within ends ends' (by simp [negative, negative_b])
        same

theorem legible_nextSummand {a : Expr} (summand : IsSummand a) (within : a.size ≤ bound) :
    Legible nextSummand IsSummand (Ends summandMarks) a := by
  intro b rest rest' summand_b ends ends' same
  obtain ⟨sign, texts⟩ := List.cons.inj (List.cons.inj same).2
  have signs : a.coefficientPart < 0 ↔ b.coefficientPart < 0 := by
    by_cases negative : a.coefficientPart < 0 <;> by_cases negative_b : b.coefficientPart < 0 <;>
      simp [negative, negative_b] at sign ⊢
  exact summand_inj smaller summand summand_b within ends ends' signs (List.cons.inj texts).2

end Bounded

theorem size_summand_le {e s : Expr} (member : s ∈ summandsOf e) : s.size ≤ e.size := by
  rcases mem_summandsOf_cases member with ⟨c, terms, rfl, inside⟩ | ⟨_, rfl⟩
  · exact (size_operand_lt inside).le
  · exact le_rfl

namespace Expr.Readable

variable {e : Expr} (readable : e.Readable callNames)

include readable

theorem isSummand {s : Expr} (member : s ∈ summandsOf e) : IsSummand s where
  readable := readable.summand member
  not_sum := ne_sum_of_mem_summandsOf readable.canonical member

theorem summandsOf_ne_nil : summandsOf e ≠ [] := by
  cases readable.canonical with
  | sum form each =>
    exact List.append_ne_nil_of_left_ne_nil (mt List.map_eq_nil_iff.mp form.nonempty) _
  | _ => exact List.cons_ne_nil _ _

theorem toList_inputForm {first : Expr} {later : List Expr}
    (summands : summandsOf e = first :: later) :
    e.inputForm.toList = first.inputForm.toList ++ later.flatMap nextSummand := by
  have texts : (later.map inputForm).flatMap (fun text => (laterSummand text).toList) =
      later.flatMap nextSummand := by
    rw [List.flatMap_map]
    refine List.flatMap_congr fun s member => ?_
    have summand := readable.isSummand (summands ▸ List.mem_cons_of_mem _ member)
    refine toList_laterSummand summand.readable.canonical summand.not_sum fun rest start => ?_
    exact summand.unsigned [] rest ((List.append_nil _).trans start)
  rw [inputForm_eq_joinSummands, summands, List.map_cons, toList_joinSummands, texts]

end Expr.Readable

/-- The input form shows the structure, also where it stands in parentheses. The induction is on the
size, since what stands in parentheses need not be a stored part: a sum shows its scaled terms. -/
theorem Expr.Readable.legibleInput {e : Expr} (readable : e.Readable callNames) :
    e.LegibleInput := by
  have smaller (x : Expr) (readable_x : x.Readable callNames) (lighter : x.size < e.size) :
      x.LegibleInput := readable_x.legibleInput
  intro b rest rest' readable_b ends ends' same
  obtain ⟨s, later, summands⟩ := List.exists_cons_of_ne_nil readable.summandsOf_ne_nil
  obtain ⟨s', later', summands'⟩ := List.exists_cons_of_ne_nil readable_b.summandsOf_ne_nil
  have summand_e (m : Expr) (member : m ∈ s :: later) : IsSummand m ∧ m.size ≤ e.size :=
    ⟨readable.isSummand (summands ▸ member), size_summand_le (summands ▸ member)⟩
  have summand_b (m : Expr) (member : m ∈ s' :: later') : IsSummand m :=
    readable_b.isSummand (summands' ▸ member)
  obtain ⟨⟨first, within⟩, others⟩ := List.forall_mem_cons.mp summand_e
  dsimp only at same
  rw [readable.toList_inputForm summands, readable_b.toList_inputForm summands', List.append_assoc,
    List.append_assoc] at same
  obtain ⟨equal, rests⟩ := separated_summands.inj (legible_summand smaller first within)
    (fun m member => legible_nextSummand smaller (others m member).1 (others m member).2)
    (fun m member => (others m member).1) summand_b ends ends' same
  -- Equal summands make up equal sums.
  refine ⟨?_, rests⟩
  rw [← sumOf_summandsOf readable.canonical, summands, equal, ← summands',
    sumOf_summandsOf readable_b.canonical]
termination_by e.size

/-- The input form is unambiguous: canonical expressions with the same input form are the same, if
all names are words and no function is called like the sine or the cosine. -/
theorem inputForm_injective {a b : Expr} (left : a.Readable callNames)
    (right : b.Readable callNames) (same : a.inputForm = b.inputForm) : a = b := by
  have texts : a.inputForm.toList ++ [] = b.inputForm.toList ++ [] := by rw [same]
  exact (left.legibleInput right (ends_nil _) (ends_nil _) texts).1

theorem inputForm_injective_reciprocal :
    ((sum (-2) [(power (sum 1 [(symbol "x", 1)]) (number (-1)), 4)]).scale (-1 / 2)).inputForm =
        "-2*(x + 1)**(-1) + 1" ∧
      (sum (-2) [(power (sum 1 [(symbol "x", 1)]) (number (-1)), 4)]).scale (-1 / 2) =
        sum 1 [(power (sum 1 [(symbol "x", 1)]) (number (-1)), -2)] := by
  have reciprocal : (power (sum 1 [(symbol "x", 1)]) (number (-1))).Canonical :=
    @canonical_powerOf (sum 1 [(symbol "x", 1)]) (number (-1)) _ (by cbv)
      (canonical_successor "x") (canonical_number _)
  have successor : (sum 1 [(symbol "x", 1)]).Named (isWord · = true)
      fun name => isWord name ∧ name ∉ callNames := by
    refine .sum fun t r stored => ?_
    cases List.mem_singleton.mp stored
    exact .symbol (by decide)
  have readable {c q : Rat} (other : c ≠ 0) (nonzero : q ≠ 0) :
      (sum c [(power (sum 1 [(symbol "x", 1)]) (number (-1)), q)]).Readable callNames := by
    refine ⟨.sum ⟨by simp, fun zero => absurd zero other, by simp [Increasing], ?_, ?_⟩ ?_,
      .sum ?_⟩ <;> intro t r stored <;> cases List.mem_singleton.mp stored
    · trivial
    · exact nonzero
    · exact reciprocal
    · exact .power successor (.number _)
  have text : ((sum (-2) [(power (sum 1 [(symbol "x", 1)]) (number (-1)), 4)]).scale
      (-1 / 2)).inputForm = "-2*(x + 1)**(-1) + 1" := by
    cbv
  have text' : (sum 1 [(power (sum 1 [(symbol "x", 1)]) (number (-1)), -2)]).inputForm =
      "-2*(x + 1)**(-1) + 1" := by
    cbv
  obtain ⟨canonical, named⟩ := readable (c := -2) (q := 4) (by decide) (by decide)
  exact ⟨text, inputForm_injective ⟨canonical.scale _, named_scale named _⟩
    (readable (by decide) (by decide)) (text.trans text'.symm)⟩

/-- A function that is called like the sine reads like it. -/
example : (apply "sin" (symbol "x")).inputForm = (sin (symbol "x")).inputForm := by
  cbv

end SymbolicAlgebra
