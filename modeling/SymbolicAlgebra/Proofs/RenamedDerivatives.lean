import SymbolicAlgebra.Proofs.DerivativeLaws
import SymbolicAlgebra.Proofs.RenamedRuns

namespace SymbolicAlgebra

open SymbolicAlgebra.Expr

/-- The summand of the product rule in which the part is differentiated that is given. -/
def partSummand (x : String) (q : Rat) (parts : List Expr) (part : Expr) : Except Error Expr := do
  let slope ← derivativeBy x part
  if slope.isZero then return number 0
  else productOf (number q :: parts.erase part ++ [slope])

section Rules

variable {x : String}

/-- The product rule needs no positions: whichever of equal parts is left out, the others are the
same. -/
theorem derivativeBy_product_parts {q : Rat} {factors : List Factor}
    (kept : KeptFactors factors) :
    (derivativeBy x (product q factors) : Except Error Expr) =
      sumOf <$> (partsOf factors).mapM (partSummand x q (partsOf factors)) := by
  have canonical := kept.canonical_partsOf
  have positions : ∀ part ∈ (partsOf factors).zipIdx, productSummand x q (partsOf factors) part =
      (partSummand x q (partsOf factors) ∘ Prod.fst) part := by
    refine List.forall_mem_zipIdx'.mpr fun i bound => ?_
    have member := List.getElem_mem bound
    have others : ((partsOf factors).eraseIdx i).Perm
        ((partsOf factors).erase (partsOf factors)[i]) :=
      ((List.getElem_cons_eraseIdx_perm bound).trans (List.perm_cons_erase member)).cons_inv
    rw [productSummand, Function.comp_apply, partSummand]
    cases derived : (derivativeBy x (partsOf factors)[i] : Except Error Expr) with
    | error cause => rfl
    | ok slope =>
      have operands := @canonical_summandOperands q ((partsOf factors).eraseIdx i) slope
        (fun e inside => canonical e (List.mem_of_mem_eraseIdx inside))
        (canonical_derivativeBy derived (canonical _ member))
      exact congrArg (ite _ _) (productOf_perm operands ((others.cons _).append_right _))
  rw [derivativeBy_product, mapM_congr positions, ← List.mapM_map, List.zipIdx_map_fst]

theorem canonical_partSummand {q : Rat} {parts : List Expr} {part r : Expr}
    (canonical : ∀ part ∈ parts, part.Canonical) (member : part ∈ parts)
    (found : partSummand x q parts part = .ok r) : r.Canonical := by
  obtain ⟨slope, derived, found⟩ := bind_eq_ok_iff.mp found
  have inner := canonical_derivativeBy derived (canonical part member)
  split at found
  · cases found
    exact canonical_number 0
  · refine canonical_productOf found (canonical_summandOperands (fun e inside => ?_) inner)
    exact canonical e (List.mem_of_mem_erase inside)

theorem derivativeBy_power_of_occurs {b e : Expr} (occurs : e.hasSymbol x = true) :
    (derivativeBy x (power b e) : Except Error Expr) = .ok (derivative (power b e) [x]) := by
  rw [derivativeBy, observe_bind, if_pos occurs]
  rfl

theorem derivativeBy_power_of_free {b e : Expr} (free : e.hasSymbol x = false) :
    (derivativeBy x (power b e) : Except Error Expr) = (do
      let slope ← derivativeBy x b
      if slope.isZero then return number 0
      else
        let reduced ← powerOf b (sumOf [e, number (-1)])
        productOf [e, reduced, slope]) := by
  rw [derivativeBy, observe_bind, if_neg (by simp [free])]
  rfl

theorem derivativeBy_sin (a : Expr) : (derivativeBy x (sin a) : Except Error Expr) = (do
    let slope ← derivativeBy x a
    productOf [cosineOf a, slope]) := by
  rw [derivativeBy]
  rfl

theorem derivativeBy_cos (a : Expr) : (derivativeBy x (cos a) : Except Error Expr) = (do
    let slope ← derivativeBy x a
    productOf [number (-1), sineOf a, slope]) := by
  rw [derivativeBy]
  rfl

theorem derivativeBy_apply (name : String) (a : Expr) :
    (derivativeBy x (apply name a) : Except Error Expr) = (do
      let slope ← derivativeBy x a
      if slope.isZero then return number 0
      else return derivative (apply name a) [x]) := by
  rw [derivativeBy, observe_bind]
  cases (derivativeBy x a : Except Error Expr) with
  | error cause => rfl
  | ok slope => exact apply_ite Except.ok _ _ _

theorem derivativeBy_derivative (a : Expr) (names : List String) :
    (derivativeBy x (derivative a names) : Except Error Expr) =
      .ok (derivative a (names ++ [x])) := by
  rw [derivativeBy]
  rfl

end Rules

theorem exists_mapM_perm {α β : Type} {f : α → Except Error β} {as others : List α} {bs : List β}
    (perm : others.Perm as) (found : as.mapM f = .ok bs) :
    ∃ bs', others.mapM f = .ok bs' ∧ bs'.Perm bs := by
  obtain ⟨bs', related, same⟩ := List.perm_comp_forall₂ perm (mapM_eq_ok_iff.mp found)
  exact ⟨bs', mapM_eq_ok_iff.mpr related, same⟩

section Renaming

variable {σ : Equiv.Perm String} {x : String}

theorem hasSymbol_renamed_eq_false_iff (e : Expr) :
    (e.renamed σ).hasSymbol (σ x) = false ↔ e.hasSymbol x = false := by
  induction e using Expr.induction with
  | number q => rfl
  | symbol name => simp [hasSymbol]
  | sum c terms ih =>
    rw [renamed_sum, hasSymbol, hasSymbol, termsHaveSymbol_eq_false_iff,
      termsHaveSymbol_eq_false_iff]
    constructor
    · intro each t q stored
      exact (ih t q stored).mp (each _ q ((sortPairs_perm _).mem_iff.mpr
        (List.mem_map.mpr ⟨_, stored, rfl⟩)))
    · intro each u q stored
      obtain ⟨t, member, rfl⟩ := mem_renamedTerms stored
      exact (ih t q member).mpr (each t q member)
  | product c factors ih =>
    rw [renamed_product, hasSymbol, hasSymbol, factorsHaveSymbol_eq_false_iff,
      factorsHaveSymbol_eq_false_iff]
    constructor
    · intro each b e stored
      exact (each _ _ ((sortPairs_perm _).mem_iff.mpr (List.mem_map.mpr ⟨_, stored, rfl⟩))).imp
        (ih b e stored).1.mp (ih b e stored).2.mp
    · intro each c f stored
      obtain ⟨b, e, member, rfl, rfl⟩ := mem_renamedFactors stored
      exact (each b e member).imp (ih b e member).1.mpr (ih b e member).2.mpr
  | power b e base exponent => simp [hasSymbol, base, exponent]
  | sin a ih => simpa [hasSymbol] using ih
  | cos a ih => simpa [hasSymbol] using ih
  | apply name a ih => simpa [hasSymbol] using ih
  | derivative a names ih => simp [hasSymbol, ih]

/-- A sum of results is renamed with them, whatever order they come in afterwards. -/
theorem sumOf_mapM_renamed {α β : Type} {f : α → Except Error Expr} {g : β → Except Error Expr}
    {h : α → β} {as : List α} {bs : List β} {d : Expr} (perm : bs.Perm (as.map h))
    (canonical : ∀ a ∈ as, ∀ r, f a = .ok r → r.Canonical)
    (each : ∀ a ∈ as, ∀ r, f a = .ok r → g (h a) = .ok (r.renamed σ))
    (found : sumOf <$> as.mapM f = .ok d) : sumOf <$> bs.mapM g = .ok (d.renamed σ) := by
  obtain ⟨rs, results, rfl⟩ := map_eq_ok_iff.mp found
  have canonical_results : ∀ r ∈ rs, r.Canonical := by
    intro r member
    obtain ⟨a, inside, result⟩ := exists_of_mem_mapM results member
    exact canonical a inside r result
  have images : (as.map h).mapM g = .ok (rs.map (renamed σ)) := by
    rw [List.mapM_map]
    exact mapM_map_eq_ok results each
  obtain ⟨rs', results', same⟩ := exists_mapM_perm perm images
  rw [renamed_sumOf canonical_results]
  exact map_eq_ok_iff.mpr ⟨rs', results',
    (sumOf_perm (canonical_map_renamed canonical_results) same.symm).symm⟩

/-- Differentiation by the renamed symbol has the renamed derivative. -/
def Expr.DerivesRenamed (σ : Equiv.Perm String) (x : String) (e : Expr) : Prop :=
  ∀ d, (derivativeBy x e : Except Error Expr) = .ok d →
    (derivativeBy (σ x) (e.renamed σ) : Except Error Expr) = .ok (d.renamed σ)

/-- What goes on with a derivative unless it is zero. -/
theorem Expr.DerivesRenamed.chain {e r : Expr} {f g : Expr → Except Error Expr}
    (derives : e.DerivesRenamed σ x) (canonical : e.Canonical)
    (rest : ∀ slope r, slope.Canonical → f slope = .ok r →
      g (slope.renamed σ) = .ok (r.renamed σ))
    (found : (do
      let slope ← derivativeBy x e
      if slope.isZero then return number 0 else f slope) = .ok r) :
    (do
      let slope ← derivativeBy (σ x) (e.renamed σ)
      if slope.isZero then return number 0 else g slope) = .ok (r.renamed σ) := by
  obtain ⟨slope, derived, found⟩ := bind_eq_ok_iff.mp found
  refine bind_eq_ok_iff.mpr ⟨slope.renamed σ, derives slope derived, ?_⟩
  rw [isZero_renamed]
  by_cases zero : slope.isZero
  · rw [if_pos zero] at found ⊢
    cases found
    rfl
  · rw [if_neg zero] at found ⊢
    exact rest slope r (canonical_derivativeBy derived canonical) found

theorem derivesRenamed_sum {c : Rat} {terms : List Multiple} (canonical : (sum c terms).Canonical)
    (each : ∀ t q, (t, q) ∈ terms → t.DerivesRenamed σ x) : (sum c terms).DerivesRenamed σ x := by
  intro d found
  have canonical_terms := canonical.valid_linearForm.canonical
  rw [derivativeBy_sum] at found
  rw [renamed_sum, derivativeBy_sum]
  refine sumOf_mapM_renamed (sortPairs_perm _) ?_ ?_ found
  all_goals
    rintro ⟨t, q⟩ stored _ scaled
    obtain ⟨s, derived, rfl⟩ := map_eq_ok_iff.mp scaled
    have slope := canonical_derivativeBy derived (canonical_terms t q stored)
  · exact slope.scale q
  · rw [renamed_scale slope]
    exact map_eq_ok_iff.mpr ⟨_, each t q stored s derived, rfl⟩

theorem partSummand_renamed {q : Rat} {parts others : List Expr} {part r : Expr}
    (canonical : ∀ part ∈ parts, part.Canonical) (perm : others.Perm (parts.map (renamed σ)))
    (member : part ∈ parts) (derives : part.DerivesRenamed σ x)
    (found : partSummand x q parts part = .ok r) :
    partSummand (σ x) q others (part.renamed σ) = .ok (r.renamed σ) := by
  refine derives.chain (canonical part member) (fun slope r canonical_slope found => ?_) found
  have operands := @canonical_summandOperands q (parts.erase part) slope
    (fun e inside => canonical e (List.mem_of_mem_erase inside)) canonical_slope
  have product := (productOf_eq_ok_iff.mp found).renamed (σ := σ) operands
  have rest : (others.erase (part.renamed σ)).Perm ((parts.erase part).map (renamed σ)) := by
    have whole := perm.trans ((List.perm_cons_erase member).map (renamed σ))
    have rest := whole.erase (part.renamed σ)
    rwa [List.map_cons, List.erase_cons_head] at rest
  refine (productOf_perm (canonical_map_renamed operands) ?_).symm.trans product
  rw [List.map_append, List.map_cons]
  exact (rest.symm.cons _).append_right _

theorem derivesRenamed_product {q : Rat} {factors : List Factor}
    (canonical : (product q factors).Canonical)
    (each : ∀ part ∈ partsOf factors, part.DerivesRenamed σ x) :
    (product q factors).DerivesRenamed σ x := by
  intro d found
  have kept := (canonical_product_iff.mp canonical).2.2
  rw [derivativeBy_product_parts kept] at found
  rw [renamed_product, derivativeBy_product_parts (keptFactors_renamed kept)]
  have perm : (partsOf (sortPairs (factors.map (renamedFactor σ)))).Perm
      ((partsOf factors).map (renamed σ)) := by
    rw [partsOf_renamed]
    exact (sortPairs_perm _).map ofFactor
  refine sumOf_mapM_renamed perm (fun part member r => ?_) (fun part member r => ?_) found
  · exact canonical_partSummand kept.canonical_partsOf member
  · exact partSummand_renamed kept.canonical_partsOf perm member (each part member)

theorem derivesRenamed_power {b e : Expr} (base : b.Canonical) (exponent : e.Canonical)
    (derives : b.DerivesRenamed σ x) : (power b e).DerivesRenamed σ x := by
  intro d found
  rw [renamed_power]
  cases occurs : e.hasSymbol x with
  | true =>
    have occurs' : (e.renamed σ).hasSymbol (σ x) = true := by
      rw [← Bool.not_eq_false, hasSymbol_renamed_eq_false_iff, Bool.not_eq_false, occurs]
    rw [derivativeBy_power_of_occurs occurs] at found
    rw [derivativeBy_power_of_occurs occurs', ← Except.ok.inj found]
    rfl
  | false =>
    rw [derivativeBy_power_of_free occurs] at found
    rw [derivativeBy_power_of_free ((hasSymbol_renamed_eq_false_iff e).mpr occurs)]
    refine derives.chain base (fun slope r canonical_slope found => ?_) found
    obtain ⟨reduced, raised, found⟩ := bind_eq_ok_iff.mp found
    have operands := canonical_pair exponent (canonical_number (-1))
    have raises := powerOf_eq_ok_iff.mp raised
    have lowered := renamed_sumOf (σ := σ) operands
    have canonical_reduced := raises.canonical base (canonical_sumOf operands)
    have power := raises.renamed (σ := σ) base (canonical_sumOf operands)
    rw [lowered] at power
    refine bind_eq_ok_iff.mpr ⟨_, power, ?_⟩
    exact (productOf_eq_ok_iff.mp found).renamed (List.forall_mem_cons.mpr
      ⟨exponent, canonical_pair canonical_reduced canonical_slope⟩)

theorem derivesRenamed_sin {a : Expr} (argument : a.Canonical) (derives : a.DerivesRenamed σ x) :
    (sin a).DerivesRenamed σ x := by
  intro d found
  rw [derivativeBy_sin] at found
  obtain ⟨slope, derived, found⟩ := bind_eq_ok_iff.mp found
  have operands := canonical_pair (canonical_cosineOf argument)
    (canonical_derivativeBy derived argument)
  have product := (productOf_eq_ok_iff.mp found).renamed (σ := σ) operands
  rw [List.map_cons, cosineOf_renamed] at product
  rw [renamed_sin, derivativeBy_sin]
  exact bind_eq_ok_iff.mpr ⟨_, derives slope derived, product⟩

theorem derivesRenamed_cos {a : Expr} (argument : a.Canonical) (derives : a.DerivesRenamed σ x) :
    (cos a).DerivesRenamed σ x := by
  intro d found
  rw [derivativeBy_cos] at found
  obtain ⟨slope, derived, found⟩ := bind_eq_ok_iff.mp found
  have operands := List.forall_mem_cons.mpr ⟨canonical_number (-1),
    canonical_pair (canonical_sineOf argument) (canonical_derivativeBy derived argument)⟩
  have product := (productOf_eq_ok_iff.mp found).renamed (σ := σ) operands
  rw [List.map_cons, List.map_cons, sineOf_renamed] at product
  rw [renamed_cos, derivativeBy_cos]
  exact bind_eq_ok_iff.mpr ⟨_, derives slope derived, product⟩

theorem derivesRenamed_apply {name : String} {a : Expr} (argument : a.Canonical)
    (derives : a.DerivesRenamed σ x) : (apply name a).DerivesRenamed σ x := by
  intro d found
  rw [derivativeBy_apply] at found
  rw [renamed_apply, derivativeBy_apply]
  refine derives.chain argument (fun slope r _ found => ?_) found
  cases found
  rfl

theorem derivesRenamed_derivative {a : Expr} {names : List String} :
    (derivative a names).DerivesRenamed σ x := by
  intro d found
  rw [derivativeBy_derivative] at found
  rw [renamed_derivative, derivativeBy_derivative, ← Except.ok.inj found, renamed_derivative,
    List.map_append]
  rfl

theorem derivesRenamed_symbol {name : String} : (symbol name).DerivesRenamed σ x := by
  intro d found
  rw [derivativeBy] at found
  cases found
  rw [renamed_symbol, derivativeBy, observe_bind]
  simp only [σ.injective.eq_iff]
  rfl

/-- Names may be changed before or after differentiation. -/
theorem derivesRenamed {e : Expr} (canonical : e.Canonical) : e.DerivesRenamed σ x := by
  induction canonical with
  | @number q form =>
    intro d found
    rw [derivativeBy_number] at found
    rw [renamed_number, derivativeBy_number, ← Except.ok.inj found, renamed_number]
  | symbol name => exact derivesRenamed_symbol
  | sum form each ih => exact derivesRenamed_sum (.sum form each) ih
  | product form bases exponents ih_bases ih_exponents =>
    refine derivesRenamed_product (.product form bases exponents) fun part member => ?_
    obtain ⟨⟨b, e⟩, stored, rfl⟩ := List.mem_map.mp member
    rw [ofFactor]
    split
    · exact ih_bases b e stored
    · exact derivesRenamed_power (bases b e stored) (exponents b e stored) (ih_bases b e stored)
  | power form base exponent ih_base => exact derivesRenamed_power base exponent ih_base
  | sin form argument ih => exact derivesRenamed_sin argument ih
  | cos form argument ih => exact derivesRenamed_cos argument ih
  | apply argument ih => exact derivesRenamed_apply argument ih
  | derivative => exact derivesRenamed_derivative

end Renaming

end SymbolicAlgebra
