import SymbolicAlgebra.Differentiation

namespace SymbolicAlgebra

open SymbolicAlgebra.Expr

/-- The number of ways to choose `k` things out of `n`. -/
def binomial (n : Nat) : Nat → Nat
  | 0 => 1
  | k + 1 => binomial n k * (n - k) / (k + 1)

/-- The most terms that the expansion of a power may be expected to have. -/
def expansionLimit : Nat :=
  4096

/-- The number of monomials of degree `n` in so many variables: a bound on the terms of the `n`-th
power of a sum. -/
def expansionTerms (summands n : Nat) : Nat :=
  binomial (n + (summands - 1)) (min n (summands - 1))

/-- The parts that a product is distributed over. -/
def summandsOf : Expr → List Expr
  | sum constant terms => (sum constant terms).operands
  | e => [e]

variable {m : Type → Type} [Monad m] [MonadExceptOf Error m] [Observer m]

/-- The sum of all products of a summand of `a` and a summand of `b`. -/
def distribute (a b : Expr) : m Expr := do
  let pairs := (summandsOf a).flatMap fun l => (summandsOf b).map fun r => [l, r]
  summed (← pairs.mapM productOf)

/-- Distributes `e` over `acc` so many times. -/
def distributeTimes (e : Expr) : Nat → Expr → m Expr
  | 0, acc => return acc
  | n + 1, acc => do distributeTimes e n (← distribute acc e)

/-- A positive power of a sum, multiplied out unless too many terms may come of it. -/
def expandPower (b : Expr) (n : Nat) : m Expr := do
  if expansionLimit < expansionTerms (summandsOf b).length n then
    throw (.exponentTooLarge n)
  else
    observe fun _ => [.powerExpanded b n]
    distributeTimes b (n - 1) b

/-- Distributes products over sums and multiplies out positive integer powers of sums, but not in
the arguments of functions and formal derivatives. -/
def expand (e : Expr) : m Expr := do
  match e with
  | sum constant terms =>
    let summands ← terms.attach.mapM fun ⟨(t, q), _⟩ => return (← expand t).scale q
    summed (summands ++ [number constant])
  | product coefficient factors =>
    (partsOf factors).attach.foldlM
      (fun acc ⟨part, _⟩ => do distribute acc (← expand part)) (number coefficient)
  | power b e =>
    let b ← expand b
    let e ← expand e
    match b, e.integer? with
    | sum constant terms, some n =>
      if 0 < n then expandPower (sum constant terms) n.toNat else powerOf (sum constant terms) e
    | b, _ => powerOf b e
  | e => return e
termination_by e.size
decreasing_by
  · have := size_term_lt ‹_›
    simp only [size]
    omega
  · have := size_part_lt ‹_›
    simp only [size]
    omega
  all_goals
    simp only [size]
    omega

end SymbolicAlgebra
