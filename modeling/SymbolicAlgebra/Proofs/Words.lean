import Mathlib
import SymbolicAlgebra.Expr.Display
import SymbolicAlgebra.Proofs.LinearForm

namespace SymbolicAlgebra

open SymbolicAlgebra.Expr

/-- Whatever is not ASCII counts as a letter. -/
def isLetter (c : Char) : Bool :=
  c.isAlpha || 128 ≤ c.toNat

def isWordPart (c : Char) : Bool :=
  isLetter c || c.isDigit || c == '_'

/-- A word: letters, digits and underscores, of which a letter comes first. -/
def isWord (name : String) : Bool :=
  match name.toList with
  | [] => false
  | first :: rest => isLetter first && rest.all isWordPart

/-- The characters of a number. -/
def isNumberPart (c : Char) : Bool :=
  c.isDigit || c == '-' || c == '/'

/-- The characters of names and numbers. -/
def isLabelPart (c : Char) : Bool :=
  isWordPart c || isNumberPart c

/-- At every depth the symbols, also those of derivatives, have names of one sort, and the functions
names of another. -/
inductive Expr.Named (symbols functions : String → Prop) : Expr → Prop where
  | number (q) : Named symbols functions (number q)
  | symbol {name} (allowed : symbols name) : Named symbols functions (symbol name)
  | sum {constant terms} (each : ∀ t q, (t, q) ∈ terms → Named symbols functions t) :
      Named symbols functions (sum constant terms)
  | product {q factors} (bases : ∀ b e, (b, e) ∈ factors → Named symbols functions b)
      (exponents : ∀ b e, (b, e) ∈ factors → Named symbols functions e) :
      Named symbols functions (product q factors)
  | power {b e} (base : Named symbols functions b) (exponent : Named symbols functions e) :
      Named symbols functions (power b e)
  | sin {a} (argument : Named symbols functions a) : Named symbols functions (sin a)
  | cos {a} (argument : Named symbols functions a) : Named symbols functions (cos a)
  | apply {name a} (allowed : functions name) (argument : Named symbols functions a) :
      Named symbols functions (apply name a)
  | derivative {a names} (allowed : ∀ name ∈ names, symbols name)
      (target : Named symbols functions a) : Named symbols functions (derivative a names)

/-- A canonical expression with words for names, none of them a reserved one where it names a
function. -/
structure Expr.Readable (reserved : List String) (e : Expr) : Prop where
  canonical : e.Canonical
  named : e.Named (isWord · = true) fun name => isWord name ∧ name ∉ reserved

section Named

variable {symbols functions : String → Prop}

theorem named_toFactor {e : Expr} (named : e.Named symbols functions) :
    e.toFactor.1.Named symbols functions ∧ e.toFactor.2.Named symbols functions := by
  cases named with
  | power base exponent => exact ⟨base, exponent⟩
  | _ => exact ⟨by constructor <;> assumption, .number 1⟩

theorem named_ofFactor {factor : Factor} (base : factor.1.Named symbols functions)
    (exponent : factor.2.Named symbols functions) : (ofFactor factor).Named symbols functions := by
  unfold ofFactor
  split
  · exact base
  · exact .power base exponent

theorem named_withCoefficient {factors : List Factor}
    (bases : ∀ b e, (b, e) ∈ factors → b.Named symbols functions)
    (exponents : ∀ b e, (b, e) ∈ factors → e.Named symbols functions) (q : Rat) :
    (withCoefficient q factors).Named symbols functions := by
  unfold withCoefficient
  split
  · exact .number 0
  · split
    · exact .number q
    · split
      · exact named_ofFactor (bases _ _ (List.mem_singleton_self _))
          (exponents _ _ (List.mem_singleton_self _))
      · exact .product bases exponents
    · exact .product bases exponents

theorem named_scale {e : Expr} (named : e.Named symbols functions) (q : Rat) :
    (e.scale q).Named symbols functions := by
  have single : (withCoefficient q [e.toFactor]).Named symbols functions := by
    obtain ⟨base, exponent⟩ := named_toFactor named
    refine named_withCoefficient (fun b x stored => ?_) (fun b x stored => ?_) q
    · rw [← List.mem_singleton.mp stored] at base
      exact base
    · rw [← List.mem_singleton.mp stored] at exponent
      exact exponent
  by_cases zero : q = 0
  · rw [zero, scale_zero]
    exact .number 0
  by_cases one : q = 1
  · rw [one, scale_one]
    exact named
  cases named with
  | number r =>
    rw [scale_number]
    exact .number _
  | @sum constant terms each =>
    rw [scale_sum zero]
    refine .sum fun t r stored => ?_
    obtain ⟨⟨u, s⟩, inside, same⟩ := List.mem_map.mp stored
    cases same
    exact each t s inside
  | product bases exponents =>
    simp only [scale, zero, one, if_false]
    exact named_withCoefficient bases exponents _
  | _ =>
    simp only [scale, zero, one, if_false]
    exact single

theorem named_operands {e : Expr} (named : e.Named symbols functions) :
    ∀ operand ∈ e.operands, operand.Named symbols functions := by
  intro operand member
  cases named with
  | number q => cases member
  | symbol allowed => cases member
  | sum each =>
    rcases List.mem_append.mp member with member | member
    · obtain ⟨⟨t, q⟩, inside, rfl⟩ := List.mem_map.mp member
      exact named_scale (each t q inside) q
    · split at member
      · cases member
      · cases List.mem_singleton.mp member
        exact .number _
  | product bases exponents =>
    rcases List.mem_append.mp member with member | member
    · split at member
      · cases member
      · cases List.mem_singleton.mp member
        exact .number _
    · obtain ⟨⟨b, x⟩, inside, rfl⟩ := List.mem_map.mp member
      exact named_ofFactor (bases b x inside) (exponents b x inside)
  | power base exponent =>
    rcases List.mem_cons.mp member with rfl | member
    · exact base
    · cases List.mem_singleton.mp member
      exact exponent
  | sin argument | cos argument | apply allowed argument | derivative allowed argument =>
    cases List.mem_singleton.mp member
    exact argument

end Named

/-- Where a text goes on after the characters of one sort is determined by the text. -/
theorem append_inj_of_forall {p : Char → Bool} : ∀ {word other rest rest' : List Char},
    (∀ c ∈ word, p c) → (∀ c ∈ other, p c) → (∀ c ∈ rest.head?, ¬ p c) →
    (∀ c ∈ rest'.head?, ¬ p c) → word ++ rest = other ++ rest' → word = other ∧ rest = rest'
  | [], [], _, _, _, _, _, _, same => ⟨rfl, same⟩
  | [], c :: other, rest, rest', _, parts, ends, _, same => by
    obtain rfl : rest = c :: (other ++ rest') := same
    exact absurd (parts c (List.mem_cons_self ..)) (ends c rfl)
  | c :: word, [], rest, rest', parts, _, _, ends, same => by
    obtain rfl : c :: (word ++ rest) = rest' := same
    exact absurd (parts c (List.mem_cons_self ..)) (ends c rfl)
  | c :: word, d :: other, rest, rest', parts, parts', ends, ends', same => by
    obtain ⟨rfl, later⟩ := List.cons.inj same
    obtain ⟨rfl, rfl⟩ := append_inj_of_forall (List.forall_mem_cons.mp parts).2
      (List.forall_mem_cons.mp parts').2 ends ends' later
    exact ⟨rfl, rfl⟩

theorem isDigit_of_mem_repr {n : Nat} {c : Char} (member : c ∈ n.repr.toList) : c.isDigit := by
  rw [Nat.toList_repr] at member
  exact Nat.isDigit_of_mem_toDigits (by decide) (by decide) member

/-- An integer is written as its digits, behind a minus sign if it is negative. -/
theorem toList_toString_int (n : Int) : (toString n).toList =
    (if n < 0 then ['-'] else []) ++ n.natAbs.repr.toList := by
  cases n with
  | ofNat m =>
    have natural : ¬ Int.ofNat m < 0 := Int.not_lt.mpr (Int.natCast_nonneg m)
    rw [if_neg natural]
    rfl
  | negSucc m =>
    rw [if_pos (Int.negSucc_lt_zero m), Int.toString_eq_repr]
    exact String.toList_append

theorem mem_toString_int {n : Int} {c : Char} (member : c ∈ (toString n).toList) :
    c.isDigit ∨ c = '-' := by
  rw [toList_toString_int] at member
  rcases List.mem_append.mp member with sign | digit
  · split at sign
    · exact .inr (List.mem_singleton.mp sign)
    · cases sign
  · exact .inl (isDigit_of_mem_repr digit)

theorem numberText_of_integer {q : Rat} (integer : isInteger q = true) :
    (numberText q).toList = (toString q.num).toList := by
  rw [numberText, if_pos integer]

theorem numberText_of_fraction {q : Rat} (fraction : ¬ isInteger q = true) :
    (numberText q).toList = (toString q.num).toList ++ '/' :: q.den.repr.toList := by
  rw [numberText, if_neg fraction, String.toList_append, String.toList_append, List.append_assoc,
    Nat.toString_eq_repr]
  rfl

theorem isNumberPart_of_mem_numberText {q : Rat} {c : Char}
    (member : c ∈ (numberText q).toList) : isNumberPart c := by
  have of_digit (digit : c.isDigit) : isNumberPart c := by simp [isNumberPart, digit]
  have of_integer (inside : c ∈ (toString q.num).toList) : isNumberPart c := by
    rcases mem_toString_int inside with digit | rfl
    · exact of_digit digit
    · rfl
  by_cases integer : isInteger q = true
  · rw [numberText_of_integer integer] at member
    exact of_integer member
  · rw [numberText_of_fraction integer] at member
    rcases List.mem_append.mp member with inside | inside
    · exact of_integer inside
    · rcases List.mem_cons.mp inside with rfl | digit
      · rfl
      · exact of_digit (isDigit_of_mem_repr digit)

theorem toString_int_injective {m n : Int} (same : (toString m).toList = (toString n).toList) :
    m = n := by
  rw [Int.toString_eq_repr, Int.toString_eq_repr] at same
  exact Int.repr_injective (String.toList_injective same)

theorem slash_notMem_toString_int (n : Int) : '/' ∉ (toString n).toList := by
  intro member
  rcases mem_toString_int member with digit | minus
  · exact absurd digit (by decide)
  · exact absurd minus (by decide)

/-- A number can be read off its text. -/
theorem numberText_injective {q r : Rat} (same : numberText q = numberText r) : q = r := by
  have texts := congrArg String.toList same
  have before (n : Int) : ∀ c ∈ (toString n).toList, (c != '/') = true := fun c member =>
    bne_iff_ne.mpr fun slash => slash_notMem_toString_int n (slash ▸ member)
  by_cases left : isInteger q = true <;> by_cases right : isInteger r = true
  · rw [numberText_of_integer left, numberText_of_integer right] at texts
    exact Rat.ext (toString_int_injective texts)
      ((beq_iff_eq.mp left).trans (beq_iff_eq.mp right).symm)
  · rw [numberText_of_integer left, numberText_of_fraction right] at texts
    exact absurd (texts ▸ List.mem_append_right _ (List.mem_cons_self ..))
      (slash_notMem_toString_int q.num)
  · rw [numberText_of_fraction left, numberText_of_integer right] at texts
    exact absurd (texts ▸ List.mem_append_right _ (List.mem_cons_self ..))
      (slash_notMem_toString_int r.num)
  · rw [numberText_of_fraction left, numberText_of_fraction right] at texts
    obtain ⟨numerators, rest⟩ := append_inj_of_forall (before _) (before _)
      (by simp) (by simp) texts
    have denominators := String.toList_injective (List.cons.inj rest).2
    exact Rat.ext (toString_int_injective numerators) (Nat.repr_injective denominators)

theorem exists_of_isWord {name : String} (word : isWord name) :
    ∃ first rest, name.toList = first :: rest ∧ isLetter first ∧
      ∀ c ∈ name.toList, isWordPart c := by
  unfold isWord at word
  cases shape : name.toList with
  | nil =>
    rw [shape] at word
    cases word
  | cons first rest =>
    rw [shape] at word
    obtain ⟨letter, parts⟩ := Bool.and_eq_true_iff.mp word
    refine ⟨first, rest, rfl, letter, List.forall_mem_cons.mpr ⟨?_, List.all_eq_true.mp parts⟩⟩
    simp [isWordPart, letter]

theorem isWordPart_of_mem {name : String} (word : isWord name) {c : Char}
    (member : c ∈ name.toList) : isWordPart c := by
  obtain ⟨_, _, _, _, parts⟩ := exists_of_isWord word
  exact parts c member

theorem isLabelPart_of_word {name : String} (word : isWord name) {c : Char}
    (member : c ∈ name.toList) : isLabelPart c :=
  Bool.or_eq_true_iff.mpr (.inl (isWordPart_of_mem word member))

theorem isLabelPart_of_number {q : Rat} {c : Char} (member : c ∈ (numberText q).toList) :
    isLabelPart c :=
  Bool.or_eq_true_iff.mpr (.inr (isNumberPart_of_mem_numberText member))

theorem isLetter_iff {c : Char} : isLetter c ↔
    65 ≤ c.toNat ∧ c.toNat ≤ 90 ∨ 97 ≤ c.toNat ∧ c.toNat ≤ 122 ∨ 128 ≤ c.toNat := by
  simp [isLetter, Char.isAlpha, Char.isUpper, Char.isLower, UInt32.le_iff_toNat_le,
    ← Char.toNat_val, or_assoc]

theorem not_isLetter_of_isDigit {c : Char} (digit : c.isDigit) : ¬ isLetter c := by
  have bounds : 48 ≤ c.toNat ∧ c.toNat ≤ 57 := Char.isDigit_iff_toNat.mp digit
  rw [isLetter_iff]
  omega

/-- No number reads like a word. -/
theorem isWord_numberText (q : Rat) : ¬ isWord (numberText q) := by
  intro word
  obtain ⟨first, rest, text, letter, _⟩ := exists_of_isWord word
  have part : isNumberPart first :=
    isNumberPart_of_mem_numberText (text ▸ List.mem_cons_self ..)
  have sorts : first.isDigit ∨ first = '-' ∨ first = '/' := by
    simpa [isNumberPart, or_assoc] using part
  rcases sorts with digit | rfl | rfl
  · exact not_isLetter_of_isDigit digit letter
  · exact absurd letter (by decide)
  · exact absurd letter (by decide)

/-- Numbers, and symbols with words for names, with their texts. -/
inductive Expr.LeafText : Expr → String → Prop where
  | number (q) : LeafText (number q) (numberText q)
  | symbol {name} (word : isWord name) : LeafText (symbol name) name

/-- Numbers and symbols are told apart by their texts. -/
theorem Expr.LeafText.inj {a b : Expr} {s t : String} (left : LeafText a s) (right : LeafText b t)
    (same : s = t) : a = b := by
  have distinct {q : Rat} {name : String} (word : isWord name) : numberText q ≠ name := fun equal =>
    isWord_numberText q (equal ▸ word)
  cases left with
  | number q =>
    cases right with
    | number r => exact congrArg Expr.number (numberText_injective same)
    | symbol word => exact absurd same (distinct word)
  | symbol word =>
    cases right with
    | number r => exact absurd same.symm (distinct word)
    | symbol _ => exact congrArg Expr.symbol same

end SymbolicAlgebra
