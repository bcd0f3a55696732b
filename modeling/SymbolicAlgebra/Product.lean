import SymbolicAlgebra.Journal
import SymbolicAlgebra.Factors.Weight

namespace SymbolicAlgebra

open SymbolicAlgebra.Expr

/-- The additions of exponents that are made when the factors of `incoming` are multiplied together
one after the other, given the totals so far. The first total of a base is its current one. -/
def exponentSums (totals : List Factor) : List Factor → List Event
  | [] => []
  | (b, e) :: incoming =>
    match totals.find? fun total => total.1 = b with
    | some (_, f) => Event.ofSum [f, e] :: exponentSums ((b, sumOf [f, e]) :: totals) incoming
    | none => exponentSums ((b, e) :: totals) incoming

variable {m : Type → Type} [Monad m] [MonadExceptOf Error m] [Observer m]

mutual

/-- The canonical product. A factor that changes its shape when its base is raised to the merged
exponent is multiplied in again; the weight is smaller by then. -/
def multiply (operands : List Expr) : m { r : Expr // r.weight ≤ totalWeight operands } := do
  observe fun _ => exponentSums [] (operands.flatMap factorPart)
  let coefficient := collectCoefficient operands
  if coefficient = 0 then
    return ⟨number 0, Nat.zero_le _⟩
  else
    let ⟨settled, within⟩ ← settle (collectFactors operands)
    let coefficient := coefficient * settled.coefficient
    observe fun _ => [.multiplied settled.kept.length settled.rewritten.length coefficient]
    if coefficient = 0 then
      return ⟨number 0, Nat.zero_le _⟩
    else if done : settled.rewritten = [] then
      return ⟨assembleProduct coefficient settled.kept, by
        have := weight_assembleProduct_le coefficient settled.kept
        have := sizeOfBases_collectFactors_le operands
        have := within.1
        simp only [Settled.weight] at this
        omega⟩
    else
      let ⟨r, lighter⟩ ←
        multiply (settled.rewritten ++ partsOf settled.kept ++ [number coefficient])
      return ⟨r, by
        have := totalWeight_partsOf_le settled.kept
        have := sizeOfBases_collectFactors_le operands
        have := within.1
        simp only [Settled.weight] at this
        simp only [totalWeight_append, totalWeight_cons, totalWeight_nil, weight_number] at lighter
        omega⟩
termination_by 3 * totalWeight operands + 2
decreasing_by
  · have := sizeOfBases_collectFactors_le operands
    omega
  · have := totalWeight_partsOf_le settled.kept
    have := sizeOfBases_collectFactors_le operands
    have := within.2 done
    simp only [Settled.weight] at this
    simp only [totalWeight_append, totalWeight_cons, totalWeight_nil, weight_number]
    omega

/-- Raises every base to its exponent. Factors whose exponent came to zero are dropped. -/
def settle (factors : List Factor) : m { s : Settled // s.Within (sizeOfBases factors) } :=
  match factors with
  | [] => return ⟨⟨1, [], []⟩, Settled.within_nil⟩
  | (b, e) :: rest => do
    if e.isZero then
      let ⟨settled, within⟩ ← settle rest
      return ⟨settled, within.mono (by rw [sizeOfBases_cons]; omega)⟩
    else
      let ⟨r, raised⟩ ← raise b e
      let ⟨settled, within⟩ ← settle rest
      return ⟨settled.add (b, e) r, by
        rw [sizeOfBases_cons]
        exact Settled.within_add within raised⟩
termination_by 3 * sizeOfBases factors + 1
decreasing_by
  all_goals
    have := size_pos b
    simp only [sizeOfBases_cons]
    omega

/-- The canonical power. An integer exponent is multiplied into a power and into the factors of a
product, and carried out on a number. -/
def raise (b e : Expr) : m { r : Expr // RaisedFrom (b, e) r } := do
  if b.isZero then
    match other : e.number? with
    | some q =>
      let r ← MonadExcept.ofExcept (zeroPower q)
      return ⟨number r, raisedFrom_number ..⟩
    | none => return ⟨power b e, raisedFrom_power (isOne_ne_true_of_number? other)⟩
  else if e.isZero then return ⟨number 1, raisedFrom_number ..⟩
  else if one : e.isOne then return ⟨b, raisedFrom_base one⟩
  else if b.isOne then return ⟨number 1, raisedFrom_number ..⟩
  else match e.integer?, shape : b with
    | some n, number q =>
      let r ← MonadExcept.ofExcept (exactPower q n)
      return ⟨number r, raisedFrom_number ..⟩
    | some n, power c f =>
      observe fun _ => [.powerFlattened (power c f) n]
      let ⟨k, _⟩ ← multiply [f, number n]
      let ⟨r, raised⟩ ← raise c k
      return ⟨r, shape ▸ raisedFrom_inner raised⟩
    | some n, product coefficient factors =>
      observe fun _ => [.powerDistributed (product coefficient factors) n]
      let q ← MonadExcept.ofExcept (exactPower coefficient n)
      let ⟨rs, light⟩ ← raiseAll factors n
      let ⟨r, lighter⟩ ← multiply (number q :: rs)
      return ⟨r, shape ▸ raisedFrom_distributed light lighter⟩
    | _, _ => return ⟨power b e, raisedFrom_power one⟩
termination_by 3 * b.size
decreasing_by
  · have := weight_le_size f
    simp only [totalWeight_cons, totalWeight_nil, weight_number, size]
    omega
  · simp only [size]
    omega
  · simp only [size]
    omega
  · have := sizeOfBases_le factors
    simp only [totalWeight_cons, weight_number, size]
    omega

/-- Raises every factor to the same integer power. -/
def raiseAll (factors : List Factor) (n : Int) :
    m { rs : List Expr // totalWeight rs ≤ sizeOfBases factors } :=
  match factors with
  | [] => return ⟨[], Nat.le_refl 0⟩
  | (b, e) :: rest => do
    let ⟨k, _⟩ ← multiply [e, number n]
    let ⟨r, raised⟩ ← raise b k
    let ⟨rs, light⟩ ← raiseAll rest n
    return ⟨r :: rs, by
      have := raised.weight_le
      rw [totalWeight_cons, sizeOfBases_cons]
      exact Nat.add_le_add this light⟩
termination_by 3 * sizeOfFactors factors + 1
decreasing_by
  · have := weight_le_size e
    have := size_pos b
    simp only [totalWeight_cons, totalWeight_nil, weight_number, sizeOfFactors]
    omega
  all_goals
    simp only [sizeOfFactors]
    omega

end

/-- The canonical product of any number of operands. -/
def productOf (operands : List Expr) : m Expr :=
  Subtype.val <$> multiply operands

/-- The canonical power. -/
def powerOf (b e : Expr) : m Expr :=
  Subtype.val <$> raise b e

/-- The factors of a product with every base raised to its exponent. -/
def settledFactors (factors : List Factor) : m Settled :=
  Subtype.val <$> settle factors

/-- The factors of a product, each raised to the same integer power. -/
def powersOf (factors : List Factor) (n : Int) : m (List Expr) :=
  Subtype.val <$> raiseAll factors n

section Equations

variable [LawfulMonad m]

theorem productOf_eq (operands : List Expr) :
    (productOf operands : m Expr) = (do
      observe fun _ => exponentSums [] (operands.flatMap factorPart)
      let coefficient := collectCoefficient operands
      if coefficient = 0 then return number 0
      else
        let settled ← settledFactors (collectFactors operands)
        let coefficient := coefficient * settled.coefficient
        observe fun _ => [.multiplied settled.kept.length settled.rewritten.length coefficient]
        if coefficient = 0 then return number 0
        else if settled.rewritten = [] then return assembleProduct coefficient settled.kept
        else productOf (settled.rewritten ++ partsOf settled.kept ++ [number coefficient])) := by
  unfold productOf settledFactors
  rw [multiply]
  simp only [map_bind, bind_map_left]
  refine bind_congr fun _ => ?_
  split
  · simp only [map_pure]
  · simp only [map_bind]
    refine bind_congr fun settled => bind_congr fun _ => ?_
    split
    · simp only [map_pure]
    · split <;> simp only [map_pure, bind_pure_comp, Functor.map_map]

theorem settledFactors_nil : (settledFactors [] : m Settled) = pure ⟨1, [], []⟩ := by
  unfold settledFactors
  rw [settle, map_pure]

theorem settledFactors_cons (b e : Expr) (rest : List Factor) :
    (settledFactors ((b, e) :: rest) : m Settled) =
      if e.isZero then settledFactors rest
      else (do
        let r ← powerOf b e
        let settled ← settledFactors rest
        return settled.add (b, e) r) := by
  unfold settledFactors powerOf
  rw [settle]
  split <;> simp

theorem powersOf_nil (n : Int) : (powersOf [] n : m (List Expr)) = pure [] := by
  unfold powersOf
  rw [raiseAll, map_pure]

theorem powersOf_cons (b e : Expr) (rest : List Factor) (n : Int) :
    (powersOf ((b, e) :: rest) n : m (List Expr)) = (do
      let r ← powerOf b (← productOf [e, number n])
      let rs ← powersOf rest n
      return r :: rs) := by
  unfold powersOf powerOf productOf
  rw [raiseAll]
  simp

theorem powerOf_eq (b e : Expr) :
    (powerOf b e : m Expr) =
      if b.isZero then
        match e.number? with
        | some q => number <$> MonadExcept.ofExcept (zeroPower q)
        | none => pure (power b e)
      else if e.isZero then pure (number 1)
      else if e.isOne then pure b
      else if b.isOne then pure (number 1)
      else match e.integer?, b with
        | some n, number q => number <$> MonadExcept.ofExcept (exactPower q n)
        | some n, power c f => (do
          observe fun _ => [.powerFlattened (power c f) n]
          powerOf c (← productOf [f, number n]))
        | some n, product coefficient factors => (do
          observe fun _ => [.powerDistributed (product coefficient factors) n]
          let q ← MonadExcept.ofExcept (exactPower coefficient n)
          productOf (number q :: (← powersOf factors n)))
        | _, b => pure (power b e) := by
  unfold powerOf productOf powersOf
  rw [raise]
  split
  · split <;> rename_i shape <;> simp [shape]
  · split
    · simp
    · split
      · simp
      · split
        · simp
        · split
          · simp [*]
          · simp [*]
          · simp [*]
          · simp only [map_pure]

end Equations

end SymbolicAlgebra
