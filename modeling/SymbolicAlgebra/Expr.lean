import SymbolicAlgebra.Number

namespace SymbolicAlgebra

/-- An algebraic expression. Sums and products are stored flat: a sum is its constant plus each
term times its multiplicity, a product is its coefficient times each base to its exponent. -/
inductive Expr where
  | number (value : Rat)
  | symbol (name : String)
  | sum (constant : Rat) (terms : List (Expr × Rat))
  | product (coefficient : Rat) (factors : List (Expr × Expr))
  | power (base exponent : Expr)
  | sin (argument : Expr)
  | cos (argument : Expr)
  | apply (name : String) (argument : Expr)
  | derivative (target : Expr) (names : List String)
deriving Inhabited

/-- A multiple of an expression, as a sum stores it. -/
abbrev Multiple := Expr × Rat

/-- A base with its exponent, as a product stores it. -/
abbrev Factor := Expr × Expr

/-- The sorts of expressions. Integers and other rationals are of different kinds. -/
inductive Kind where
  | integer
  | rational
  | symbol
  | sum
  | product
  | power
  | sin
  | cos
  | function
  | derivative
deriving DecidableEq, Repr

def Kind.name : Kind → String
  | integer => "Integer"
  | rational => "Rational"
  | symbol => "Symbol"
  | sum => "Add"
  | product => "Mul"
  | power => "Pow"
  | sin => "Sin"
  | cos => "Cos"
  | function => "FunctionSymbol"
  | derivative => "Derivative"

namespace Expr

def kind : Expr → Kind
  | number q => if isInteger q then .integer else .rational
  | symbol _ => .symbol
  | sum _ _ => .sum
  | product _ _ => .product
  | power _ _ => .power
  | sin _ => .sin
  | cos _ => .cos
  | apply _ _ => .function
  | derivative _ _ => .derivative

def number? : Expr → Option Rat
  | number q => some q
  | _ => none

def integer? : Expr → Option Int
  | number q => if isInteger q then some q.num else none
  | _ => none

/-- What a numeric leaf stores. -/
def numeral? : Expr → Option Numeral
  | number q => some (.ofNumber q)
  | _ => none

def symbol? : Expr → Option String
  | symbol name => some name
  | _ => none

/-- Whether the expression is the literal number `q`. -/
def isNumber (q : Rat) : Expr → Bool
  | number r => r == q
  | _ => false

def isZero (e : Expr) : Bool :=
  e.isNumber 0

def isOne (e : Expr) : Bool :=
  e.isNumber 1

def isMinusOne (e : Expr) : Bool :=
  e.isNumber (-1)

theorem isNumber_iff {q : Rat} {e : Expr} : e.isNumber q = true ↔ e = number q := by
  cases e <;> simp [isNumber]

/-- Base and exponent of the expression read as one factor of a product. -/
def toFactor : Expr → Factor
  | power b e => (b, e)
  | e => (e, number 1)

/-- The expression that a stored factor of a product stands for. -/
def ofFactor (factor : Factor) : Expr :=
  if factor.2.isOne then factor.1 else power factor.1 factor.2

mutual

/-- The size of an expression. Terms and factors count for more than one node each, so that a
scaled term is smaller than its sum, and a factor on its own smaller than its product. -/
def size : Expr → Nat
  | number _ => 1
  | symbol _ => 1
  | sum _ terms => 2 + sizeOfTerms terms
  | product _ factors => 2 + sizeOfFactors factors
  | power b e => 1 + size b + size e
  | sin a => 1 + size a
  | cos a => 1 + size a
  | apply _ a => 1 + size a
  | derivative a _ => 1 + size a

def sizeOfTerms : List Multiple → Nat
  | [] => 0
  | (t, _) :: rest => 3 + size t + sizeOfTerms rest

def sizeOfFactors : List Factor → Nat
  | [] => 0
  | (b, e) :: rest => 1 + size b + size e + sizeOfFactors rest

end

theorem size_pos (e : Expr) : 0 < e.size := by
  cases e <;> simp only [size] <;> omega

theorem size_term_lt {t : Expr} {q : Rat} {terms : List Multiple} (member : (t, q) ∈ terms) :
    t.size + 3 ≤ sizeOfTerms terms := by
  induction terms with
  | nil => cases member
  | cons head rest ih =>
    obtain ⟨u, r⟩ := head
    simp only [sizeOfTerms]
    rcases List.mem_cons.mp member with equal | later
    · cases equal
      omega
    · have := ih later
      omega

theorem size_factor_lt {b e : Expr} {factors : List Factor} (member : (b, e) ∈ factors) :
    b.size + e.size + 1 ≤ sizeOfFactors factors := by
  induction factors with
  | nil => cases member
  | cons head rest ih =>
    obtain ⟨c, f⟩ := head
    simp only [sizeOfFactors]
    rcases List.mem_cons.mp member with equal | later
    · cases equal
      omega
    · have := ih later
      omega

/-- Induction over expressions, with the hypothesis for every stored term, base and exponent. -/
theorem induction {motive : Expr → Prop} (number : ∀ q, motive (number q))
    (symbol : ∀ name, motive (symbol name))
    (sum : ∀ c terms, (∀ t q, (t, q) ∈ terms → motive t) → motive (sum c terms))
    (product : ∀ c factors, (∀ b e, (b, e) ∈ factors → motive b ∧ motive e) →
      motive (product c factors))
    (power : ∀ b e, motive b → motive e → motive (power b e))
    (sin : ∀ a, motive a → motive (sin a)) (cos : ∀ a, motive a → motive (cos a))
    (apply : ∀ name a, motive a → motive (apply name a))
    (derivative : ∀ a names, motive a → motive (derivative a names)) (e : Expr) : motive e := by
  induction size_eq : e.size using Nat.strongRecOn generalizing e with
  | ind n ih =>
    cases e with
    | number q => exact number q
    | symbol name => exact symbol name
    | sum c terms =>
      refine sum c terms fun t q member => ih t.size ?_ t rfl
      have := size_term_lt member
      simp only [size] at size_eq
      omega
    | product c factors =>
      refine product c factors fun b e member => ?_
      have := size_factor_lt member
      simp only [size] at size_eq
      exact ⟨ih b.size (by omega) b rfl, ih e.size (by omega) e rfl⟩
    | power b e =>
      simp only [size] at size_eq
      exact power b e (ih b.size (by omega) b rfl) (ih e.size (by omega) e rfl)
    | sin a =>
      simp only [size] at size_eq
      exact sin a (ih a.size (by omega) a rfl)
    | cos a =>
      simp only [size] at size_eq
      exact cos a (ih a.size (by omega) a rfl)
    | apply name a =>
      simp only [size] at size_eq
      exact apply name a (ih a.size (by omega) a rfl)
    | derivative a names =>
      simp only [size] at size_eq
      exact derivative a names (ih a.size (by omega) a rfl)

end Expr

end SymbolicAlgebra
