import SymbolicAlgebra.Sum

namespace SymbolicAlgebra

namespace Expr

/-- What an expression contributes to the coefficient of a product. -/
def coefficientPart : Expr → Rat
  | number q => q
  | product coefficient _ => coefficient
  | _ => 1

/-- What an expression contributes to the factors of a product. -/
def factorPart : Expr → List Factor
  | number _ => []
  | product _ factors => factors
  | e => [e.toFactor]

end Expr

open SymbolicAlgebra.Expr

/-- Multiplies a power into factors ordered by their bases. Exponents of equal bases are added. -/
def insertFactor (factor : Factor) : List Factor → List Factor
  | [] => [factor]
  | (b, e) :: rest =>
    match factor.1.compare b with
    | .lt => factor :: (b, e) :: rest
    | .eq => (b, sumOf [factor.2, e]) :: rest
    | .gt => (b, e) :: insertFactor factor rest

/-- Every base once, in order, with the total of its exponents. -/
def collectFactors (operands : List Expr) : List Factor :=
  (operands.flatMap factorPart).foldr insertFactor []

def collectCoefficient : List Expr → Rat
  | [] => 1
  | e :: rest => e.coefficientPart * collectCoefficient rest

/-- The expression of a coefficient and factors that need no further merging. A number times a
lone sum is multiplied out. -/
def assembleProduct (coefficient : Rat) : List Factor → Expr
  | [] => number coefficient
  | [(b, e)] =>
    if coefficient = 1 then ofFactor (b, e)
    else match b, e.isOne with
      | sum constant terms, true => (sum constant terms).scale coefficient
      | b, _ => product coefficient [(b, e)]
  | factors => product coefficient factors

/-- Factors sorted by what raising each base to its exponent gave: a number, the factor itself,
or an expression of another shape that has to be multiplied in again. -/
structure Settled where
  coefficient : Rat
  kept : List Factor
  rewritten : List Expr

def Settled.add (settled : Settled) (factor : Factor) : Expr → Settled
  | number q => { settled with coefficient := q * settled.coefficient }
  | product coefficient factors =>
    { settled with rewritten := product coefficient factors :: settled.rewritten }
  | e =>
    if e.toFactor = factor then { settled with kept := factor :: settled.kept }
    else { settled with rewritten := e :: settled.rewritten }

end SymbolicAlgebra
