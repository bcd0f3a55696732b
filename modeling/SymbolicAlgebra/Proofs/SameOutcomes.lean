import SymbolicAlgebra.Construction
import SymbolicAlgebra.Proofs.Faithful
import SymbolicAlgebra.Proofs.ProductRun

namespace SymbolicAlgebra

open SymbolicAlgebra.Expr

variable {m : Type → Type} [Monad m] [MonadExceptOf Error m] [Observer m] [Faithful m] [LawfulMonad m]

/-- Powers do if the products and powers do that they are made from. -/
theorem follows_powerOf_of {b e : Expr}
    (inner : ∀ c f (n : Int), b = power c f →
      Follows Eq (productOf [f, number n] : m Expr) (productOf [f, number n]) ∧
        ∀ k, Follows Eq (powerOf c k : m Expr) (powerOf c k))
    (distributed : ∀ q factors n, b = product q factors →
      Follows Eq (powersOf factors n : m (List Expr)) (powersOf factors n) ∧
        ∀ p rs, (powersOf factors n : Except Error (List Expr)) = .ok rs →
          Follows Eq (productOf (number p :: rs) : m Expr) (productOf (number p :: rs))) :
    Follows Eq (powerOf b e : m Expr) (powerOf b e) := by
  rw [powerOf_eq, powerOf_eq]
  split
  · split
    · exact follows_map (follows_ofExcept _) fun _ _ _ same => congrArg number same
    · exact Faithful.pure rfl
  split
  · exact Faithful.pure rfl
  split
  · exact Faithful.pure rfl
  split
  · exact Faithful.pure rfl
  split
  · exact follows_map (follows_ofExcept _) fun _ _ _ same => congrArg number same
  · rename_i n c f _ _ _
    obtain ⟨exponent, base⟩ := inner c f n rfl
    exact follows_observed (follows_bind exponent fun k _ => base k)
  · rename_i n q factors _ _ _
    obtain ⟨powers, product⟩ := distributed q factors n rfl
    exact follows_observed (follows_bind (follows_ofExcept _) fun p _ =>
      follows_bind powers fun rs found => product p rs found)
  · exact Faithful.pure rfl

mutual

/-- Products end in every setting as they do in the plain one. -/
theorem follows_productOf (operands : List Expr) :
    Follows Eq (productOf operands : m Expr) (productOf operands) := by
  rw [productOf_eq, productOf_eq]
  refine follows_observed ?_
  dsimp only
  split
  · exact Faithful.pure rfl
  refine follows_bind (follows_settledFactors (collectFactors operands)) fun settled found => ?_
  refine follows_observed ?_
  split
  · exact Faithful.pure rfl
  split
  · exact Faithful.pure rfl
  · exact follows_productOf (settled.rewritten ++ partsOf settled.kept ++
      [number (collectCoefficient operands * settled.coefficient)])
termination_by 3 * totalWeight operands + 2
decreasing_by
  · have := sizeOfBases_collectFactors_le operands
    omega
  · rename_i rewritten
    have := totalWeight_partsOf_le settled.kept
    have := sizeOfBases_collectFactors_le operands
    have := (within_of_settledFactors found).2 rewritten
    simp only [Settled.weight] at this
    simp only [totalWeight_append, totalWeight_cons, totalWeight_nil, weight_number]
    omega

theorem follows_settledFactors (factors : List Factor) :
    Follows Eq (settledFactors factors : m Settled) (settledFactors factors) := by
  match factors with
  | [] =>
    rw [settledFactors_nil, settledFactors_nil]
    exact Faithful.pure rfl
  | (b, e) :: rest =>
    rw [settledFactors_cons, settledFactors_cons]
    split
    · exact follows_settledFactors rest
    · exact follows_bind (follows_powerOf b e) fun r _ =>
        follows_bind (follows_settledFactors rest) fun settled _ => Faithful.pure rfl
termination_by 3 * sizeOfBases factors + 1
decreasing_by
  all_goals
    have := size_pos b
    simp only [sizeOfBases_cons]
    omega

/-- So do powers. -/
theorem follows_powerOf (b e : Expr) : Follows Eq (powerOf b e : m Expr) (powerOf b e) :=
  follows_powerOf_of
    (fun c f n _ => ⟨follows_productOf [f, number n], fun k => follows_powerOf c k⟩)
    fun q factors n _ => ⟨follows_powersOf factors n, fun p rs _ =>
      follows_productOf (number p :: rs)⟩
termination_by 3 * b.size
decreasing_by
  · rename_i shape
    have := weight_le_size f
    simp only [shape, totalWeight_cons, totalWeight_nil, weight_number, size]
    omega
  iterate 2
    rename_i shape
    simp only [shape, size]
    omega
  · rename_i shape found
    have := totalWeight_le_of_powersOf found
    have := sizeOfBases_le factors
    simp only [shape, totalWeight_cons, weight_number, size]
    omega

theorem follows_powersOf (factors : List Factor) (n : Int) :
    Follows Eq (powersOf factors n : m (List Expr)) (powersOf factors n) := by
  match factors with
  | [] =>
    rw [powersOf_nil, powersOf_nil]
    exact Faithful.pure rfl
  | (b, e) :: rest =>
    rw [powersOf_cons, powersOf_cons]
    exact follows_bind (follows_productOf [e, number n]) fun k _ =>
      follows_bind (follows_powerOf b k) fun r _ =>
        follows_bind (follows_powersOf rest n) fun rs _ => Faithful.pure rfl
termination_by 3 * sizeOfFactors factors + 1
decreasing_by
  · have := weight_le_size e
    have := size_pos b
    simp only [totalWeight_cons, totalWeight_nil, weight_number, sizeOfFactors]
    omega
  all_goals
    simp only [sizeOfFactors]
    omega

end

omit [LawfulMonad m] in
theorem follows_summed (summands : List Expr) :
    Follows Eq (summed summands : m Expr) (summed summands) :=
  follows_observed (Faithful.pure rfl)

theorem follows_quotientOf (a b : Expr) : Follows Eq (quotientOf a b : m Expr) (quotientOf a b) :=
  follows_bind (follows_powerOf b (number (-1))) fun r _ => follows_productOf [a, r]

theorem follows_ratioOf (a b : Expr) : Follows Eq (ratioOf a b : m Expr) (ratioOf a b) := by
  unfold ratioOf
  split
  · exact follows_map (follows_ofExcept _) fun _ _ _ same => congrArg number same
  · exact Faithful.throw _

omit [LawfulMonad m] in
theorem follows_variableName (e : Expr) :
    Follows Eq (variableName e : m String) (variableName e) := by
  unfold variableName
  split
  · exact Faithful.pure rfl
  · exact Faithful.throw _

/-- Derivatives end in every setting as they do in the plain one. -/
theorem follows_derivativeBy (x : String) (e : Expr) :
    Follows Eq (derivativeBy x e : m Expr) (derivativeBy x e) := by
  cases e with
  | number q =>
    rw [derivativeBy, derivativeBy]
    exact follows_observed (Faithful.pure rfl)
  | symbol name =>
    rw [derivativeBy, derivativeBy]
    exact follows_observed (Faithful.pure rfl)
  | sum constant terms =>
    rw [derivativeBy, derivativeBy]
    refine follows_observed (follows_bind (follows_mapM_eq fun term _ => ?_)
      fun summands _ => follows_summed summands)
    obtain ⟨⟨t, q⟩, stored⟩ := term
    exact follows_bind (follows_derivativeBy x t) fun slope _ => Faithful.pure rfl
  | product coefficient factors =>
    rw [derivativeBy, derivativeBy]
    refine follows_observed (follows_bind (follows_mapM_eq fun place _ => ?_)
      fun summands _ => follows_summed summands)
    obtain ⟨⟨part, stored⟩, i⟩ := place
    refine follows_bind (follows_derivativeBy x part) fun slope _ => ?_
    split
    · exact Faithful.pure rfl
    · exact follows_productOf _
  | power b e =>
    rw [derivativeBy, derivativeBy]
    refine follows_observed ?_
    split
    · exact Faithful.pure rfl
    refine follows_bind (follows_derivativeBy x b) fun slope _ => ?_
    split
    · exact Faithful.pure rfl
    · exact follows_bind (follows_summed [e, number (-1)]) fun lower _ =>
        follows_bind (follows_powerOf b lower) fun reduced _ =>
          follows_productOf [e, reduced, slope]
  | sin a =>
    rw [derivativeBy, derivativeBy]
    exact follows_observed (follows_bind (follows_derivativeBy x a) fun slope _ =>
      follows_productOf _)
  | cos a =>
    rw [derivativeBy, derivativeBy]
    exact follows_observed (follows_bind (follows_derivativeBy x a) fun slope _ =>
      follows_productOf _)
  | apply name a =>
    rw [derivativeBy, derivativeBy]
    exact follows_observed (follows_bind (follows_derivativeBy x a) fun slope _ =>
      Faithful.pure rfl)
  | derivative a names =>
    rw [derivativeBy, derivativeBy]
    exact follows_observed (Faithful.pure rfl)
termination_by e.size
decreasing_by
  · have := size_term_lt stored
    simp only [size]
    omega
  · have := size_part_lt stored
    simp only [size]
    omega
  all_goals
    simp only [size]
    omega

theorem follows_differentiate (e x : Expr) :
    Follows Eq (differentiate e x : m Expr) (differentiate e x) :=
  follows_bind (follows_variableName x) fun name _ => follows_derivativeBy name e

theorem follows_distribute (a b : Expr) :
    Follows Eq (distribute a b : m Expr) (distribute a b) :=
  follows_bind (follows_mapM_eq fun pair _ => follows_productOf pair) fun products _ =>
    follows_summed products

theorem follows_distributeTimes (e : Expr) (n : Nat) (acc : Expr) :
    Follows Eq (distributeTimes e n acc : m Expr) (distributeTimes e n acc) := by
  induction n generalizing acc with
  | zero => exact Faithful.pure rfl
  | succ n ih => exact follows_bind (follows_distribute acc e) fun next _ => ih next

theorem follows_expandPower (b : Expr) (n : Nat) :
    Follows Eq (expandPower b n : m Expr) (expandPower b n) := by
  unfold expandPower
  split
  · exact Faithful.throw _
  · exact follows_observed (follows_distributeTimes b (n - 1) b)

/-- Expansions end in every setting as they do in the plain one. -/
theorem follows_expand (e : Expr) : Follows Eq (expand e : m Expr) (expand e) := by
  cases e with
  | sum constant terms =>
    rw [expand, expand]
    refine follows_bind (follows_mapM_eq fun term _ => ?_) fun summands _ => follows_summed _
    obtain ⟨⟨t, q⟩, stored⟩ := term
    exact follows_bind (follows_expand t) fun expanded _ => Faithful.pure rfl
  | product coefficient factors =>
    rw [expand, expand]
    refine follows_foldlM (fun place _ acc => ?_) _
    obtain ⟨part, stored⟩ := place
    exact follows_bind (follows_expand part) fun expanded _ => follows_distribute acc expanded
  | power b e =>
    rw [expand, expand]
    refine follows_bind (follows_expand b) fun base _ => follows_bind (follows_expand e)
      fun exponent _ => ?_
    split
    · split
      · exact follows_expandPower _ _
      · exact follows_powerOf _ _
    · exact follows_powerOf _ _
  | _ =>
    rw [expand, expand]
    all_goals first | exact Faithful.pure rfl | simp
termination_by e.size
decreasing_by
  · have := size_term_lt stored
    simp only [size]
    omega
  · have := size_part_lt stored
    simp only [size]
    omega
  all_goals
    simp only [size]
    omega

end SymbolicAlgebra
