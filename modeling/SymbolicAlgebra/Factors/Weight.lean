import SymbolicAlgebra.Factors

namespace SymbolicAlgebra

open SymbolicAlgebra.Expr

/-- The size of all bases, exponents left aside. Merging equal bases never raises it, whatever
exponents come of that; it is what shrinks when a product has to be built again. -/
def sizeOfBases : List Factor → Nat
  | [] => 0
  | factor :: rest => factor.1.size + sizeOfBases rest

def Expr.weight (e : Expr) : Nat :=
  sizeOfBases e.factorPart

def totalWeight : List Expr → Nat
  | [] => 0
  | e :: rest => e.weight + totalWeight rest

def Settled.weight (settled : Settled) : Nat :=
  sizeOfBases settled.kept + totalWeight settled.rewritten

/-- A bound on the weight, which is not attained once something was rewritten. -/
def Settled.Within (settled : Settled) (bound : Nat) : Prop :=
  settled.weight ≤ bound ∧ (settled.rewritten ≠ [] → settled.weight < bound)

theorem sizeOfBases_cons (factor : Factor) (factors : List Factor) :
    sizeOfBases (factor :: factors) = factor.1.size + sizeOfBases factors := rfl

theorem sizeOfBases_append (factors others : List Factor) :
    sizeOfBases (factors ++ others) = sizeOfBases factors + sizeOfBases others := by
  induction factors with
  | nil => exact (Nat.zero_add _).symm
  | cons head rest ih =>
    rw [List.cons_append, sizeOfBases_cons, ih, sizeOfBases_cons, Nat.add_assoc]

theorem totalWeight_nil : totalWeight [] = 0 := rfl

theorem totalWeight_cons (e : Expr) (es : List Expr) :
    totalWeight (e :: es) = e.weight + totalWeight es := rfl

theorem totalWeight_append (es others : List Expr) :
    totalWeight (es ++ others) = totalWeight es + totalWeight others := by
  induction es with
  | nil => exact (Nat.zero_add _).symm
  | cons head rest ih =>
    rw [List.cons_append, totalWeight_cons, ih, totalWeight_cons, Nat.add_assoc]

theorem weight_number (q : Rat) : (number q).weight = 0 := rfl

theorem weight_product (q : Rat) (factors : List Factor) :
    (product q factors).weight = sizeOfBases factors := rfl

theorem sizeOfBases_le (factors : List Factor) : sizeOfBases factors ≤ sizeOfFactors factors := by
  induction factors with
  | nil => exact Nat.le_refl 0
  | cons head rest ih =>
    rw [sizeOfBases_cons, sizeOfFactors]
    omega

theorem weight_of_single {e : Expr} (single : e.factorPart = [e.toFactor]) :
    e.weight = e.toFactor.1.size := by
  simp [weight, single, sizeOfBases]

theorem weight_le_size (e : Expr) : e.weight ≤ e.size := by
  cases e with
  | number q => exact Nat.zero_le _
  | product q factors =>
    have bound := sizeOfBases_le factors
    rw [weight_product, size]
    omega
  | power b e =>
    have whole : (power b e).weight = b.size := weight_of_single rfl
    rw [whole, size]
    omega
  | _ => exact Nat.le_of_eq (weight_of_single rfl)

theorem weight_ofFactor_le (factor : Factor) : (ofFactor factor).weight ≤ factor.1.size := by
  unfold ofFactor
  split
  · exact weight_le_size _
  · exact Nat.le_of_eq (weight_of_single rfl)

theorem totalWeight_partsOf_le (factors : List Factor) :
    totalWeight (partsOf factors) ≤ sizeOfBases factors := by
  induction factors with
  | nil => exact Nat.le_refl 0
  | cons head rest ih =>
    have first := weight_ofFactor_le head
    rw [partsOf, List.map_cons, totalWeight_cons, sizeOfBases_cons]
    rw [partsOf] at ih
    omega

theorem sizeOfBases_insertFactor_le (factor : Factor) (factors : List Factor) :
    sizeOfBases (insertFactor factor factors) ≤ factor.1.size + sizeOfBases factors := by
  induction factors with
  | nil => exact Nat.le_of_eq (sizeOfBases_cons factor [])
  | cons head rest ih =>
    unfold insertFactor
    split <;> simp only [sizeOfBases_cons] at ih ⊢ <;> omega

theorem sizeOfBases_collectFactors_le (operands : List Expr) :
    sizeOfBases (collectFactors operands) ≤ totalWeight operands := by
  have collected (factors : List Factor) :
      sizeOfBases (factors.foldr insertFactor []) ≤ sizeOfBases factors := by
    induction factors with
    | nil => exact Nat.le_refl 0
    | cons head rest ih =>
      have first := sizeOfBases_insertFactor_le head (rest.foldr insertFactor [])
      rw [List.foldr_cons, sizeOfBases_cons]
      omega
  have total : sizeOfBases (operands.flatMap factorPart) = totalWeight operands := by
    induction operands with
    | nil => rfl
    | cons head rest ih =>
      rw [List.flatMap_cons, sizeOfBases_append, ih, totalWeight_cons, weight]
  rw [← total]
  exact collected _

theorem weight_scale_sum_le (q constant : Rat) (terms : List Multiple) :
    ((sum constant terms).scale q).weight ≤ (sum constant terms).size := by
  unfold scale
  split
  · exact Nat.zero_le _
  · split
    · exact weight_le_size _
    · refine Nat.le_trans (weight_le_size _) (Nat.le_of_eq ?_)
      simp only [size, sizeOfTerms_map_multiplicity]

theorem weight_assembleProduct_le (coefficient : Rat) (factors : List Factor) :
    (assembleProduct coefficient factors).weight ≤ sizeOfBases factors := by
  unfold assembleProduct
  split
  · exact Nat.zero_le _
  · rename_i b e
    split
    · rw [sizeOfBases_cons]
      exact Nat.le_trans (weight_ofFactor_le (b, e)) (Nat.le_add_right ..)
    · split
      · rw [sizeOfBases_cons]
        exact Nat.le_trans (weight_scale_sum_le ..) (Nat.le_add_right ..)
      · exact Nat.le_refl _
  · exact Nat.le_refl _

/-- What raising a factor may give: the factor itself, or an expression of smaller weight. -/
def RaisedFrom (factor : Factor) (r : Expr) : Prop :=
  r = ofFactor factor ∨ r.weight < factor.1.size

theorem RaisedFrom.weight_le {factor : Factor} {r : Expr} (raised : RaisedFrom factor r) :
    r.weight ≤ factor.1.size := by
  rcases raised with rfl | less
  · exact weight_ofFactor_le factor
  · exact Nat.le_of_lt less

theorem weight_product_lt (q : Rat) (factors : List Factor) :
    (product q factors).weight < (product q factors).size := by
  have bound := sizeOfBases_le factors
  rw [weight_product, size]
  omega

theorem RaisedFrom.weight_lt_of_product {factor : Factor} {q : Rat} {factors : List Factor}
    (raised : RaisedFrom factor (product q factors)) :
    (product q factors).weight < factor.1.size := by
  rcases raised with same | less
  · unfold ofFactor at same
    split at same
    · rw [← same]
      exact weight_product_lt q factors
    · cases same
  · exact less

theorem RaisedFrom.weight_lt_of_ne {factor : Factor} {r : Expr} (raised : RaisedFrom factor r)
    (moved : r.toFactor ≠ factor) : r.weight < factor.1.size := by
  rcases raised with rfl | less
  · obtain ⟨b, e⟩ := factor
    unfold ofFactor at moved ⊢
    split at moved
    · rename_i one
      rw [if_pos one]
      obtain rfl := isNumber_iff.mp one
      cases b with
      | number q => exact Nat.lt_of_lt_of_eq Nat.zero_lt_one (size_number q).symm
      | product q factors => exact weight_product_lt q factors
      | power c f =>
        have whole : (power c f).weight = c.size := weight_of_single rfl
        simp only [whole, size]
        omega
      | _ => exact absurd rfl moved
    · exact absurd rfl moved
  · exact less

theorem Settled.within_add {settled : Settled} {factor : Factor} {r : Expr} {bound : Nat}
    (within : settled.Within bound) (raised : RaisedFrom factor r) :
    (settled.add factor r).Within (factor.1.size + bound) := by
  obtain ⟨le, lt⟩ := within
  unfold Settled.Within Settled.weight at *
  unfold Settled.add
  split
  · dsimp only
    exact ⟨by omega, fun rewritten => by have := lt rewritten; omega⟩
  · have less := raised.weight_lt_of_product
    simp only [totalWeight_cons]
    exact ⟨by omega, fun _ => by omega⟩
  · split
    · simp only [sizeOfBases_cons]
      exact ⟨by omega, fun rewritten => by have := lt rewritten; omega⟩
    · have less := raised.weight_lt_of_ne ‹_›
      simp only [totalWeight_cons]
      exact ⟨by omega, fun _ => by omega⟩

theorem Settled.within_nil : (Settled.mk 1 [] []).Within (sizeOfBases []) :=
  ⟨Nat.le_refl 0, fun rewritten => absurd rfl rewritten⟩

theorem Settled.Within.mono {settled : Settled} {bound larger : Nat}
    (within : settled.Within bound) (le : bound ≤ larger) : settled.Within larger :=
  ⟨Nat.le_trans within.1 le, fun rewritten => Nat.lt_of_lt_of_le (within.2 rewritten) le⟩

theorem raisedFrom_number (factor : Factor) (q : Rat) : RaisedFrom factor (number q) :=
  .inr (size_pos factor.1)

theorem raisedFrom_power {b e : Expr} (other : e.isOne ≠ true) : RaisedFrom (b, e) (power b e) :=
  .inl (if_neg other).symm

theorem raisedFrom_base {b e : Expr} (one : e.isOne = true) : RaisedFrom (b, e) b :=
  .inl (if_pos one).symm

theorem isOne_ne_true_of_number? {e : Expr} (other : e.number? = none) : e.isOne ≠ true := by
  intro one
  obtain rfl := isNumber_iff.mp one
  cases other

theorem raisedFrom_inner {c f e k r : Expr} (raised : RaisedFrom (c, k) r) :
    RaisedFrom (power c f, e) r := by
  have := raised.weight_le
  refine .inr ?_
  simp only [size] at this ⊢
  omega

theorem raisedFrom_distributed {q p : Rat} {factors : List Factor} {e r : Expr} {rs : List Expr}
    (light : totalWeight rs ≤ sizeOfBases factors)
    (lighter : r.weight ≤ totalWeight (number p :: rs)) :
    RaisedFrom (product q factors, e) r := by
  have := sizeOfBases_le factors
  refine .inr ?_
  rw [totalWeight_cons, weight_number] at lighter
  simp only [size]
  omega

end SymbolicAlgebra
