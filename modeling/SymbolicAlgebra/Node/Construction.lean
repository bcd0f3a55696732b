import SymbolicAlgebra.Construction
import SymbolicAlgebra.Node.Substitution

namespace SymbolicAlgebra

namespace Node

/-- The node of an operation's result, which may be one of its operands or stored in one. -/
def ofConstruction (e : Expr) : Construction Node → Node
  | .number _ | .symbol _ | .ratio _ _ | .substitution _ _ => leaf e
  | .sum operands => sum operands e
  | .product operands => product operands e
  | .power b x => power b x e
  | .difference l r => sum [l, r.scale (-1)] e
  | .quotient l r => product [l, r] e
  | .negation a => a.scale (-1)
  | .absolute a | .derivative a _ => a.derived e
  | .sin a | .cos a | .apply _ a => wrap e a
  | .formalDerivative a xs => if xs.isEmpty then a else wrap e a
  | .expansion a =>
    match a.value with
    | .sum _ _ | .product _ _ | .power _ _ => a.derived e
    | _ => a
  | .operand a i => a.operands[i]?.getD (leaf e)
  | .base a => a.toFactor.1
  | .exponent a => a.toFactor.2

variable {m : Type → Type} [Monad m] [MonadExceptOf Error m] [Observer m] [MonadStateOf Nat m]

/-- Carries out an operation on nodes. -/
def construct : Construction Node → m Node
  | .substitution target pairs =>
    substitute (Substitution.ofPairs (pairs.map fun (k, r) => (k.value, r))) target
  | operation => do make (ofConstruction (← (operation.map value).result) operation)

end Node

end SymbolicAlgebra
