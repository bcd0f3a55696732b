import SymbolicAlgebra.Construction
import SymbolicAlgebra.Text.IntegerLiteral

namespace SymbolicAlgebra

/-- A term says how an expression is built: each node is an operation on what its parts give. -/
inductive Term where
  | integer (value : Int)
  | literal (text : String)
  | ratio (numerator denominator : Int)
  | ratioOf (numerator denominator : Term)
  | symbol (name : String)
  | sum (summands : List Term)
  | product (operands : List Term)
  | power (base exponent : Term)
  | difference (left right : Term)
  | quotient (left right : Term)
  | negation (operand : Term)
  | absolute (operand : Term)
  | sin (argument : Term)
  | cos (argument : Term)
  | apply (name : String) (argument : Term)
  | formalDerivative (target : Term) (xs : List Term)
  | derivative (target : Term) (xs : List Term)
  | expansion (operand : Term)
  | substitution (target : Term) (pairs : List (Term × Term))
  | operand (of : Term) (index : Nat)
  | base (of : Term)
  | exponent (of : Term)
  | reference (name : String)
  | iteration (times : Nat) (start step : Term)
  | current

/-- What the names in a term refer to, and the current value of the innermost iteration. -/
structure Bindings (V : Type) where
  named : String → Option V
  current : Option V

section

variable {m : Type → Type} [Monad m] [MonadExceptOf Error m] {V : Type}

/-- Whatever is bound, or the error that nothing is. -/
def required (name : String) : Option V → m V
  | some value => return value
  | none => throw (.unboundName name)

/-- The value of `step` applied so many times. -/
def iterate (step : V → m V) : Nat → V → m V
  | 0, value => return value
  | n + 1, value => do iterate step n (← step value)

namespace Term

mutual

/-- What a term gives if `construct` carries out each operation. Parts are evaluated from left to
right, each variable of a derivative just before it is used; the first refusal is the answer. -/
def evaluateWith (construct : Construction V → m V) (bindings : Bindings V) : Term → m V
  | integer n => construct (.number n)
  | literal text => do construct (.number (← MonadExcept.ofExcept (readInteger text)))
  | ratio n d => do construct (.number (← MonadExcept.ofExcept (SymbolicAlgebra.ratio n d)))
  | ratioOf n d => do
    let numerator ← evaluateWith construct bindings n
    let denominator ← evaluateWith construct bindings d
    construct (.ratio numerator denominator)
  | symbol name => construct (.symbol name)
  | sum summands => do construct (.sum (← evaluateAll construct bindings summands))
  | product operands => do construct (.product (← evaluateAll construct bindings operands))
  | power b e => do
    let base ← evaluateWith construct bindings b
    let exponent ← evaluateWith construct bindings e
    construct (.power base exponent)
  | difference l r => do
    let left ← evaluateWith construct bindings l
    let right ← evaluateWith construct bindings r
    construct (.difference left right)
  | quotient l r => do
    let left ← evaluateWith construct bindings l
    let right ← evaluateWith construct bindings r
    construct (.quotient left right)
  | negation a => do construct (.negation (← evaluateWith construct bindings a))
  | absolute a => do construct (.absolute (← evaluateWith construct bindings a))
  | sin a => do construct (.sin (← evaluateWith construct bindings a))
  | cos a => do construct (.cos (← evaluateWith construct bindings a))
  | apply name a => do construct (.apply name (← evaluateWith construct bindings a))
  | formalDerivative a xs => do
    let target ← evaluateWith construct bindings a
    construct (.formalDerivative target (← evaluateAll construct bindings xs))
  | derivative a xs => do
    differentiateAll construct bindings (← evaluateWith construct bindings a) xs
  | expansion a => do construct (.expansion (← evaluateWith construct bindings a))
  | substitution a pairs => do
    let target ← evaluateWith construct bindings a
    construct (.substitution target (← evaluatePairs construct bindings pairs))
  | operand a i => do construct (.operand (← evaluateWith construct bindings a) i)
  | base a => do construct (.base (← evaluateWith construct bindings a))
  | exponent a => do construct (.exponent (← evaluateWith construct bindings a))
  | reference name => required name (bindings.named name)
  | iteration n start step => do
    let first ← evaluateWith construct bindings start
    iterate (fun value => evaluateWith construct { bindings with current := some value } step)
      n first
  | current => required "it" bindings.current

def evaluateAll (construct : Construction V → m V) (bindings : Bindings V) :
    List Term → m (List V)
  | [] => return []
  | t :: rest => do
    let value ← evaluateWith construct bindings t
    return value :: (← evaluateAll construct bindings rest)

def evaluatePairs (construct : Construction V → m V) (bindings : Bindings V) :
    List (Term × Term) → m (List (V × V))
  | [] => return []
  | (k, r) :: rest => do
    let key ← evaluateWith construct bindings k
    let replacement ← evaluateWith construct bindings r
    return (key, replacement) :: (← evaluatePairs construct bindings rest)

def differentiateAll (construct : Construction V → m V) (bindings : Bindings V) (value : V) :
    List Term → m V
  | [] => return value
  | t :: rest => do
    let x ← evaluateWith construct bindings t
    differentiateAll construct bindings (← construct (.derivative value x)) rest

end

end Term

end

/-- The expression that a term gives. -/
def Term.evaluate {m : Type → Type} [Monad m] [MonadExceptOf Error m] [Observer m]
    (bindings : Bindings Expr) (t : Term) : m Expr :=
  t.evaluateWith Construction.result bindings

end SymbolicAlgebra
