import SymbolicAlgebra.Product

namespace SymbolicAlgebra

open SymbolicAlgebra.Expr

/-- The absolute value of an expression without a numeric coefficient: an application of `abs`,
which is not applied twice. -/
def absoluteTerm : Expr → Expr
  | apply name a => if name = "abs" then apply name a else apply "abs" (apply name a)
  | e => apply "abs" e

/-- The absolute value. Numbers are evaluated and numeric coefficients taken out. -/
def absolute : Expr → Expr
  | number q => number (if q < 0 then -q else q)
  | product q factors =>
    if q = 1 then absoluteTerm (product q factors)
    else (absoluteTerm (withCoefficient 1 factors)).scale (if q < 0 then -q else q)
  | e => absoluteTerm e

def sineOf (a : Expr) : Expr :=
  if a.isZero then number 0 else sin a

def cosineOf (a : Expr) : Expr :=
  if a.isZero then number 1 else cos a

/-- The target differentiated formally by each of the names in turn. -/
def formalDerivative (target : Expr) (names : List String) : Expr :=
  if names = [] then target else derivative target names

variable {m : Type → Type} [Monad m] [MonadExceptOf Error m] [Observer m]

/-- The canonical sum, with its step observed. -/
def summed (summands : List Expr) : m Expr := do
  observe fun _ => [Event.ofSum summands]
  return sumOf summands

/-- `a - b` as the sum of `a` and the negated `b`. -/
def differenceOf (a b : Expr) : m Expr :=
  summed [a, b.negate]

/-- `a / b` as the product of `a` and the reciprocal of `b`. -/
def quotientOf (a b : Expr) : m Expr := do
  productOf [a, ← powerOf b (number (-1))]

/-- The number that one integer divided by another gives. -/
def ratioOf (a b : Expr) : m Expr :=
  match a.integer?, b.integer? with
  | some n, some d => number <$> MonadExcept.ofExcept (ratio n d)
  | _, _ => throw .nonIntegerRatio

/-- The name of a variable of differentiation, which has to be a symbol. -/
def variableName (e : Expr) : m String :=
  match e.symbol? with
  | some name => return name
  | none => throw (.notASymbol e.inputForm)

end SymbolicAlgebra
