import SymbolicAlgebra.Node
import SymbolicAlgebra.Substitution

namespace SymbolicAlgebra

open SymbolicAlgebra.Expr

variable {m : Type → Type} [Monad m] [MonadExceptOf Error m] [Observer m] [MonadStateOf Nat m]

namespace Node

/-- Makes a node. Every construction has a number of its own. -/
def make (node : Node) : m Node := do
  let serial ← getThe Nat
  set (serial + 1)
  return node.named serial

def summed (operands : List Node) : m Node := do
  make (sum operands (← SymbolicAlgebra.summed (operands.map value)))

def productOf (operands : List Node) : m Node := do
  make (product operands (← SymbolicAlgebra.productOf (operands.map value)))

def powerOf (b x : Node) : m Node := do
  make (power b x (← SymbolicAlgebra.powerOf b.value x.value))

/-- Looks the expression up, then its parts, as among values; but a part counts as unchanged only
if it is still the same node. -/
def rewrite (map : Substitution Node) (e : Expr) (origin : Origin) : m (Option Node) := do
  let changed ← match map.find e with
    | some replacement =>
      observe fun _ => [.substituted e replacement.value]
      pure (some replacement)
    | none =>
      match e with
      | number _ => pure none
      | symbol _ => pure none
      | .sum constant terms =>
        let parts ← terms.attach.zipIdx.mapM fun (⟨(t, q), _⟩, i) => do
          let scaled := scale q ⟨t, origin.part i⟩
          return ⟨scaled, ← rewrite map (t.scale q) scaled.origin⟩
        let constants := if constant = 0 then [] else
          [⟨⟨number constant, origin.part terms.length⟩, map.find (number constant)⟩]
        rebuild (parts ++ constants) summed
      | .product coefficient factors =>
        let rest := withCoefficient 1 factors
        let scalar : Part Node :=
          ⟨⟨number coefficient, origin.part (2 * factors.length)⟩, map.find (number coefficient)⟩
        match if coefficient = 1 then none else map.find rest with
        | some replacement =>
          observe fun _ => [.substituted rest replacement.value]
          some <$> productOf [scalar.value, replacement]
        | none =>
          let parts ← factors.attach.zipIdx.mapM fun (⟨(b, x), _⟩, i) => do
            let base : Node := ⟨b, origin.part (2 * i)⟩
            let exponent : Node := ⟨x, origin.part (2 * i + 1)⟩
            let whole := power base exponent (ofFactor (b, x))
            match map.find (ofFactor (b, x)) with
            | some replacement => return ⟨whole, some replacement⟩
            | none =>
              let base := ⟨base, ← rewrite map b base.origin⟩
              let exponent := ⟨exponent, ← rewrite map x exponent.origin⟩
              return ⟨whole, ← rebuildPair base exponent powerOf⟩
          rebuild ((if coefficient = 1 then [] else [scalar]) ++ parts) productOf
      | .power b x =>
        let base := ⟨⟨b, origin.part 0⟩, ← rewrite map b (origin.part 0)⟩
        let exponent := ⟨⟨x, origin.part 1⟩, ← rewrite map x (origin.part 1)⟩
        rebuildPair base exponent powerOf
      | sin a => (← rewrite map a (origin.part 0)).mapM fun a => make (wrap (sineOf a.value) a)
      | cos a => (← rewrite map a (origin.part 0)).mapM fun a => make (wrap (cosineOf a.value) a)
      | apply name a =>
        (← rewrite map a (origin.part 0)).mapM fun a => make (wrap (apply name a.value) a)
      | derivative a names =>
        let renamed ← names.mapM (rename (map.map fun (k, r) => (k, r.value)))
        let target ← rewrite map a (origin.part 0)
        if target.isNone ∧ renamed = names then pure none
        else
          let target := target.getD ⟨a, origin.part 0⟩
          some <$> make (wrap (derivative target.value renamed) target)
  return changed.filter fun node => !node.isSame ⟨e, origin⟩
termination_by e.size
decreasing_by
  · have := size_term_lt ‹_›
    have := size_scale_le q t
    simp only [size]
    omega
  iterate 2
    have := size_factor_lt ‹_›
    simp only [size]
    omega
  all_goals
    simp only [size]
    omega

/-- Replaces subexpressions as `substitute` does. What has not changed stays the same node. -/
def substitute (map : Substitution Node) (node : Node) : m Node := do
  if map.isEmpty then return node
  else return (← rewrite map node.value node.origin).getD node

end Node

end SymbolicAlgebra
