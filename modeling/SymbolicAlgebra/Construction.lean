import SymbolicAlgebra.Substitution
import SymbolicAlgebra.Expansion

namespace SymbolicAlgebra

/-- One step in building an expression: an operation with the operands that it is given. -/
inductive Construction (V : Type) where
  | number (value : Rat)
  | symbol (name : String)
  | ratio (numerator denominator : V)
  | sum (summands : List V)
  | product (operands : List V)
  | power (base exponent : V)
  | difference (left right : V)
  | quotient (left right : V)
  | negation (operand : V)
  | absolute (operand : V)
  | sin (argument : V)
  | cos (argument : V)
  | apply (name : String) (argument : V)
  | formalDerivative (target : V) (xs : List V)
  | derivative (target x : V)
  | expansion (operand : V)
  | substitution (target : V) (pairs : List (V × V))
  | operand (of : V) (index : Nat)
  | base (of : V)
  | exponent (of : V)

namespace Construction

/-- The same operation with other operands. -/
def map {V W : Type} (f : V → W) : Construction V → Construction W
  | number q => number q
  | symbol name => symbol name
  | ratio n d => ratio (f n) (f d)
  | sum summands => sum (summands.map f)
  | product operands => product (operands.map f)
  | power b e => power (f b) (f e)
  | difference l r => difference (f l) (f r)
  | quotient l r => quotient (f l) (f r)
  | negation a => negation (f a)
  | absolute a => absolute (f a)
  | sin a => sin (f a)
  | cos a => cos (f a)
  | apply name a => apply name (f a)
  | formalDerivative a xs => formalDerivative (f a) (xs.map f)
  | derivative a x => derivative (f a) (f x)
  | expansion a => expansion (f a)
  | substitution a pairs => substitution (f a) (pairs.map fun (k, r) => (f k, f r))
  | operand a i => operand (f a) i
  | base a => base (f a)
  | exponent a => exponent (f a)

variable {m : Type → Type} [Monad m] [MonadExceptOf Error m] [Observer m]

/-- The expression that an operation gives for its operands. -/
def result : Construction Expr → m Expr
  | number q => return .number q
  | symbol name => return .symbol name
  | ratio n d => ratioOf n d
  | sum summands => summed summands
  | product operands => productOf operands
  | power b e => powerOf b e
  | difference l r => differenceOf l r
  | quotient l r => quotientOf l r
  | negation a => return a.negate
  | absolute a => return SymbolicAlgebra.absolute a
  | sin a => return sineOf a
  | cos a => return cosineOf a
  | apply name a => return .apply name a
  | formalDerivative a xs => return SymbolicAlgebra.formalDerivative a (← xs.mapM variableName)
  | derivative a x => differentiate a x
  | expansion a => expand a
  | substitution a pairs => substitute (Substitution.ofPairs pairs) a
  | operand a i =>
    match a.operands[i]? with
    | some e => return e
    | none => throw (.noOperand i)
  | base a => return a.toFactor.1
  | exponent a => return a.toFactor.2

end Construction

end SymbolicAlgebra
