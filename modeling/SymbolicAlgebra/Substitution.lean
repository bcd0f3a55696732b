import SymbolicAlgebra.Arithmetic

namespace SymbolicAlgebra

open SymbolicAlgebra.Expr

/-- Expressions with their replacements. The first pair for an expression counts. -/
abbrev Substitution (V : Type) := List (Expr × V)

/-- The substitution in which a later pair for an expression overrides an earlier one. -/
def Substitution.ofPairs {V : Type} (pairs : List (Expr × V)) : Substitution V :=
  pairs.reverse

def Substitution.find {V : Type} (map : Substitution V) (e : Expr) : Option V :=
  (List.find? (fun pair => pair.1 = e) map).map (·.2)

/-- A part of an expression, and what it is changed to if it is. -/
structure Part (V : Type) where
  before : V
  after : Option V

def Part.isChanged {V : Type} (part : Part V) : Bool :=
  part.after.isSome

def Part.value {V : Type} (part : Part V) : V :=
  part.after.getD part.before

variable {m : Type → Type} [Monad m] [MonadExceptOf Error m] [Observer m]

/-- Builds a whole from its parts again if one of them was changed. -/
def rebuild {V : Type} (parts : List (Part V)) (build : List V → m V) : m (Option V) :=
  if parts.any Part.isChanged then some <$> build (parts.map Part.value) else return none

/-- Builds a whole from two parts again if one of them was changed. -/
def rebuildPair {V : Type} (first second : Part V) (build : V → V → m V) : m (Option V) :=
  if first.isChanged || second.isChanged then some <$> build first.value second.value
  else return none

/-- The names of variables of differentiation after substitution, which can only rename them. -/
def rename (map : Substitution Expr) (name : String) : m String :=
  match map.find (symbol name) with
  | none => return name
  | some replacement =>
    match replacement.symbol? with
    | some other => return other
    | none => throw (.derivativeVariableSubstitution replacement.inputForm)

/-- Looks the expression up, then its parts; `none` if nothing was found. The terms of a sum are
looked up with their multiplicities, a product also without its coefficient. An expression that
is replaced by itself is not changed. -/
def rewrite (map : Substitution Expr) (e : Expr) : m (Option Expr) := do
  match map.find e with
  | some replacement =>
    observe fun _ => [.substituted e replacement]
    return if e = replacement then none else some replacement
  | none =>
    match e with
    | number _ => return none
    | symbol _ => return none
    | sum constant terms =>
      let parts ← terms.attach.mapM fun ⟨(t, q), _⟩ =>
        return ⟨t.scale q, ← rewrite map (t.scale q)⟩
      let constants := if constant = 0 then [] else
        [⟨number constant, map.find (number constant)⟩]
      rebuild (parts ++ constants) summed
    | product coefficient factors =>
      let rest := withCoefficient 1 factors
      match if coefficient = 1 then none else map.find rest with
      | some replacement =>
        observe fun _ => [.substituted rest replacement]
        let coefficient := (map.find (number coefficient)).getD (number coefficient)
        some <$> productOf [coefficient, replacement]
      | none =>
        let coefficients := if coefficient = 1 then [] else
          [⟨number coefficient, map.find (number coefficient)⟩]
        let parts ← factors.attach.mapM fun ⟨(b, e), _⟩ => do
          match map.find (ofFactor (b, e)) with
          | some replacement => return ⟨ofFactor (b, e), some replacement⟩
          | none =>
            let base := ⟨b, ← rewrite map b⟩
            let exponent := ⟨e, ← rewrite map e⟩
            return ⟨ofFactor (b, e), ← rebuildPair base exponent powerOf⟩
        rebuild (coefficients ++ parts) productOf
    | power b e =>
      let base := ⟨b, ← rewrite map b⟩
      let exponent := ⟨e, ← rewrite map e⟩
      rebuildPair base exponent powerOf
    | sin a => return (← rewrite map a).map sineOf
    | cos a => return (← rewrite map a).map cosineOf
    | apply name a => return (← rewrite map a).map (apply name)
    | derivative a names =>
      let renamed ← names.mapM (rename map)
      let target ← rewrite map a
      if target.isNone ∧ renamed = names then return none
      else return some (derivative (target.getD a) renamed)
termination_by e.size
decreasing_by
  · have := size_term_lt ‹_›
    have := size_scale_le q t
    simp only [size]
    omega
  iterate 2
    have := size_factor_lt ‹_›
    simp only [size]
    omega
  all_goals
    simp only [size]
    omega

/-- Replaces subexpressions as the substitution says, the largest first, and canonically. Nothing is
looked up in a substitution without pairs. -/
def substitute (map : Substitution Expr) (e : Expr) : m Expr := do
  if map.isEmpty then return e
  else return (← rewrite map e).getD e

end SymbolicAlgebra
