import SymbolicAlgebra.Expr.Compare

namespace SymbolicAlgebra

namespace Expr

/-- A number times factors that are already those of a canonical product. Nothing needs merging:
the result is a number, one bare factor, or a product. -/
def withCoefficient (coefficient : Rat) (factors : List Factor) : Expr :=
  if coefficient = 0 then number 0
  else match factors with
    | [] => number coefficient
    | [factor] => if coefficient = 1 then ofFactor factor else product coefficient [factor]
    | _ => product coefficient factors

/-- A number times an expression. The number reaches only coefficients and multiplicities, so
that a sum is multiplied term by term. -/
def scale (q : Rat) (e : Expr) : Expr :=
  if q = 0 then number 0
  else if q = 1 then e
  else match e with
    | number r => number (q * r)
    | sum constant terms => sum (q * constant) (terms.map fun (t, r) => (t, q * r))
    | product coefficient factors => withCoefficient (q * coefficient) factors
    | e => withCoefficient q [e.toFactor]

/-- What an expression adds to the constant of a sum. -/
def constantPart : Expr → Rat
  | number q => q
  | sum constant _ => constant
  | _ => 0

/-- What an expression adds to the terms of a sum. A product is a multiple of the product of its
factors alone. -/
def termPart : Expr → List Multiple
  | number _ => []
  | sum _ terms => terms
  | product coefficient factors => [(withCoefficient 1 factors, coefficient)]
  | e => [(e, 1)]

end Expr

/-- Adds up the multiplicities of equal neighbours. -/
def mergeNeighbours : List Multiple → List Multiple
  | [] => []
  | (t, q) :: rest =>
    match mergeNeighbours rest with
    | [] => [(t, q)]
    | (u, r) :: others => if t = u then (t, q + r) :: others else (t, q) :: (u, r) :: others

/-- Every term once, in order, with the total of its multiplicities, unless that is zero. -/
def collectTerms (multiples : List Multiple) : List Multiple :=
  (mergeNeighbours (multiples.mergeSort fun x y => (x.1.compare y.1).isLE)).filter (·.2 ≠ 0)

def collectConstant : List Expr → Rat
  | [] => 0
  | e :: rest => e.constantPart + collectConstant rest

/-- A rational combination of distinct terms, in order and none with multiplicity zero. -/
structure LinearForm where
  constant : Rat
  terms : List Multiple

/-- The sum of expressions as a combination of the terms they are made of. -/
def LinearForm.ofSummands (summands : List Expr) : LinearForm where
  constant := collectConstant summands
  terms := collectTerms (summands.flatMap Expr.termPart)

def LinearForm.toExpr (form : LinearForm) : Expr :=
  match form.terms with
  | [] => .number form.constant
  | [(t, q)] => if form.constant = 0 then t.scale q else .sum form.constant [(t, q)]
  | terms => .sum form.constant terms

namespace Expr

/-- The canonical sum. -/
def sumOf (summands : List Expr) : Expr :=
  (LinearForm.ofSummands summands).toExpr

def negate (e : Expr) : Expr :=
  e.scale (-1)

/-- The factors of a product, each as an expression. -/
def partsOf (factors : List Factor) : List Expr :=
  factors.map ofFactor

/-- The operands of an expression, in stored order. Those of a sum are its scaled terms and then its
constant, those of a product its coefficient and then its factors; a number that changes nothing
is left out. -/
def operands : Expr → List Expr
  | number _ => []
  | symbol _ => []
  | sum constant terms =>
    terms.map (fun (t, q) => t.scale q) ++ (if constant = 0 then [] else [number constant])
  | product coefficient factors =>
    (if coefficient = 1 then [] else [number coefficient]) ++ partsOf factors
  | power b e => [b, e]
  | sin a => [a]
  | cos a => [a]
  | apply _ a => [a]
  | derivative a _ => [a]

theorem size_number (q : Rat) : (number q).size = 1 := by
  simp only [size]

theorem size_ofFactor_le (factor : Factor) :
    (ofFactor factor).size ≤ 1 + factor.1.size + factor.2.size := by
  unfold ofFactor
  split
  · omega
  · simp only [size]
    omega

theorem size_toFactor (e : Expr) : e.toFactor.1.size + e.toFactor.2.size ≤ e.size + 1 := by
  cases e <;> simp only [toFactor, size] <;> omega

theorem size_withCoefficient_le (q : Rat) (factors : List Factor) :
    (withCoefficient q factors).size ≤ 2 + sizeOfFactors factors := by
  unfold withCoefficient
  split
  · simp only [size]
    omega
  · split
    · simp only [size]
      omega
    · split
      · rename_i factor _
        have := size_ofFactor_le factor
        simp only [sizeOfFactors]
        omega
      · simp only [size]
        omega
    · simp only [size]
      omega

theorem sizeOfTerms_map_multiplicity (f : Rat → Rat) (terms : List Multiple) :
    sizeOfTerms (terms.map fun (t, r) => (t, f r)) = sizeOfTerms terms := by
  induction terms with
  | nil => rfl
  | cons head rest ih => simp only [List.map_cons, sizeOfTerms, ih]

/-- Scaling adds at most the node of a product and its exponent. -/
theorem size_scale_le (q : Rat) (e : Expr) : (e.scale q).size ≤ e.size + 4 := by
  have positive := e.size_pos
  unfold scale
  split
  · simp only [size]
    omega
  · split
    · omega
    · split
      · simp only [size]
        omega
      · simp only [size, sizeOfTerms_map_multiplicity]
        omega
      · rename_i coefficient factors
        have := size_withCoefficient_le (q * coefficient) factors
        simp only [size]
        omega
      · have bound := size_withCoefficient_le q [e.toFactor]
        have split := size_toFactor e
        simp only [sizeOfFactors] at bound
        omega

theorem size_part_lt {part : Expr} {factors : List Factor} (member : part ∈ partsOf factors) :
    part.size ≤ sizeOfFactors factors := by
  obtain ⟨⟨b, e⟩, inside, rfl⟩ := List.mem_map.mp member
  have bound := size_factor_lt inside
  have whole : (ofFactor (b, e)).size ≤ 1 + b.size + e.size := size_ofFactor_le (b, e)
  omega

/-- Every operand is smaller than the expression. -/
theorem size_operand_lt {e operand : Expr} (member : operand ∈ e.operands) :
    operand.size < e.size := by
  cases e with
  | number q => simp [operands] at member
  | symbol name => simp [operands] at member
  | sum constant terms =>
    simp only [operands, List.mem_append, List.mem_map] at member
    rcases member with ⟨⟨t, q⟩, inside, rfl⟩ | inside
    · have bound := size_term_lt inside
      have scaled := size_scale_le q t
      simp only [size]
      omega
    · split at inside
      · cases inside
      · obtain rfl := List.mem_singleton.mp inside
        simp only [size]
        omega
  | product coefficient factors =>
    rcases List.mem_append.mp member with inside | inside
    · split at inside
      · cases inside
      · obtain rfl := List.mem_singleton.mp inside
        simp only [size]
        omega
    · have bound := size_part_lt inside
      simp only [size]
      omega
  | power b e =>
    simp only [operands, List.mem_cons, List.not_mem_nil, or_false] at member
    simp only [size]
    rcases member with rfl | rfl <;> omega
  | _ =>
    simp only [operands, List.mem_singleton] at member
    subst member
    simp only [size]
    omega

end Expr

end SymbolicAlgebra
