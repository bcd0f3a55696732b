import SymbolicAlgebra.Arithmetic
import SymbolicAlgebra.Symbols

namespace SymbolicAlgebra

open SymbolicAlgebra.Expr

variable {m : Type → Type} [Monad m] [MonadExceptOf Error m] [Observer m]

/-- The derivative by the symbol `x`. It stays formal for an unknown function of something that
depends on `x`, and for a power whose exponent has `x` in it. -/
def derivativeBy (x : String) (e : Expr) : m Expr := do
  observe fun _ => [.differentiated x e]
  match e with
  | number _ => return number 0
  | symbol name => return number (if name = x then 1 else 0)
  | sum _ terms =>
    let summands ← terms.attach.mapM fun ⟨(t, q), _⟩ => return (← derivativeBy x t).scale q
    summed summands
  | product coefficient factors =>
    let parts := partsOf factors
    let summands ← parts.attach.zipIdx.mapM fun (⟨part, _⟩, i) => do
      let slope ← derivativeBy x part
      if slope.isZero then return number 0
      else productOf (number coefficient :: parts.eraseIdx i ++ [slope])
    summed summands
  | power b e =>
    if e.hasSymbol x then return derivative (power b e) [x]
    else
      let slope ← derivativeBy x b
      if slope.isZero then return number 0
      else
        let reduced ← powerOf b (← summed [e, number (-1)])
        productOf [e, reduced, slope]
  | sin a => productOf [cosineOf a, ← derivativeBy x a]
  | cos a => productOf [number (-1), sineOf a, ← derivativeBy x a]
  | apply name a =>
    let slope ← derivativeBy x a
    return if slope.isZero then number 0 else derivative (apply name a) [x]
  | derivative a names => return derivative a (names ++ [x])
termination_by e.size
decreasing_by
  · have := size_term_lt ‹_›
    simp only [size]
    omega
  · have := size_part_lt ‹_›
    simp only [size]
    omega
  all_goals
    simp only [size]
    omega

/-- The derivative by an expression, which has to be a symbol. -/
def differentiate (e x : Expr) : m Expr := do
  derivativeBy (← variableName x) e

end SymbolicAlgebra
