import SymbolicAlgebra.Proofs.FactorwisePowers
import SymbolicAlgebra.Proofs.Monomials

namespace SymbolicAlgebra

open SymbolicAlgebra.Expr

/-- The operands of the power of an operand: its coefficient and its factors, each of them raised. -/
def raisedGroup (n : Int) (e : Expr) : List Expr :=
  number (e.coefficientPart ^ n) :: e.factorPart.map (raisedPart n)

/-- The bases of the factors of some operands, each once. -/
def basesOf (operands : List Expr) : List Expr :=
  ((operands.flatMap factorPart).map Prod.fst).dedup

/-- The raised factors of the operands that have a base in common. -/
def raisedPowers (n : Int) (operands : List Expr) (b : Expr) : List Expr :=
  (exponentsOf b (operands.flatMap factorPart)).map fun x => raisedPart n (b, x)

/-- The factors of some operands can be raised one by one, multiplied at once, and as well operand by
operand or base by base. The powers of a base then multiply to the power of its total exponent.
Nothing is refused on the way. -/
structure PowersApart (n : Int) (operands : List Expr) : Prop where
  each : ∀ e ∈ operands, ∃ r, factorwisePower n e = .ok r
  merged : ∀ b x, (b, x) ∈ mergedFactors operands →
    ∃ r, (powerOf b (x.scale n) : Except Error Expr) = .ok r
  whole : ∃ w, (productOf (operands.map (raisedGroup n)).flatten : Except Error Expr) = .ok w
  by_operand : Regroupable [] (operands.map (raisedGroup n))
  by_base : Regroupable [number (collectCoefficient operands ^ n)]
    ((basesOf operands).map (raisedPowers n operands))
  added : ∀ b, (productOf (raisedPowers n operands b) : Except Error Expr) =
    productOf ((exponentsOf b (mergedFactors operands)).map fun x => raisedPart n (b, x))

theorem raisedGroups_perm (n : Int) (operands : List Expr) :
    (operands.map (raisedGroup n)).flatten.Perm
      (operands.map (fun e => number (e.coefficientPart ^ n)) ++
        (operands.flatMap factorPart).map (raisedPart n)) := by
  rw [← List.flatMap_def, List.map_flatMap]
  exact (List.map_append_flatMap_perm operands _ _).symm

theorem prod_share_numbers (n : Int) (operands : List Expr) :
    ((operands.map fun e => number (e.coefficientPart ^ n)).map share).prod =
      (number (collectCoefficient operands ^ n)).share := by
  induction operands with
  | nil => rw [collectCoefficient, one_zpow]; rfl
  | cons e rest ih =>
    rw [List.map_cons, List.map_cons, List.prod_cons, ih, collectCoefficient, mul_zpow,
      share_number_mul]

/-- A product over factors is taken base by base. -/
theorem prod_map_basesOf {M : Type*} [CommMonoid M] (φ : Factor → M) {operands : List Expr}
    {factors : List Factor}
    (covered : ∀ b e, (b, e) ∈ factors → ∃ x, (b, x) ∈ operands.flatMap factorPart) :
    (factors.map φ).prod = ((basesOf operands).map fun b =>
      ((exponentsOf b factors).map fun e => φ (b, e)).prod).prod := by
  have occurs (b e : Expr) (stored : (b, e) ∈ factors) : b ∈ (basesOf operands).toFinset := by
    obtain ⟨x, member⟩ := covered b e stored
    exact List.mem_toFinset.mpr (List.mem_dedup.mpr (List.mem_map_of_mem member))
  have distinct : (basesOf operands).Nodup := List.nodup_dedup _
  rw [prod_map_eq_prod_bases φ occurs, List.prod_toFinset _ distinct]

/-- The factors that are raised are the same operand by operand and base by base. -/
theorem alike_raisedGroups (n : Int) (operands : List Expr) :
    Alike (operands.map (raisedGroup n)).flatten ([number (collectCoefficient operands ^ n)] ++
      ((basesOf operands).map (raisedPowers n operands)).flatten) := by
  have groups := alike_of_perm (raisedGroups_perm n operands)
  have bases : (((operands.flatMap factorPart).map (raisedPart n)).map share).prod =
      ((basesOf operands).map fun b => ((raisedPowers n operands b).map share).prod).prod := by
    rw [List.map_map, prod_map_basesOf _ fun b e stored => ⟨e, stored⟩]
    simp only [raisedPowers, List.map_map, Function.comp_def]
  rw [Alike, groups, List.map_append, List.map_append, List.prod_append, List.prod_append,
    prod_share_numbers, bases, List.map_singleton, List.prod_singleton, List.map_flatten,
    List.prod_flatten, List.map_map, List.map_map]
  rfl

/-- What the raised factors with a base in common multiply to. -/
def raisedTotal (n : Int) (operands : List Expr) (b : Expr) : Expr :=
  ((exponentsOf b (mergedFactors operands)).map fun x => raisedPart n (b, x)).headD (number 1)

section Apart

variable {n : Int} {operands : List Expr} (canonical : ∀ e ∈ operands, e.Canonical)

include canonical

theorem exponentsOf_mergedFactors_cases (b : Expr) : exponentsOf b (mergedFactors operands) = [] ∨
    ∃ x, (b, x) ∈ mergedFactors operands ∧ exponentsOf b (mergedFactors operands) = [x] := by
  by_cases present : ∃ x, (b, x) ∈ mergedFactors operands
  · obtain ⟨x, stored⟩ := present
    exact .inr ⟨x, stored, (merged_mergedFactors canonical).exponentsOf_eq stored⟩
  · exact .inl (exponentsOf_eq_nil fun x stored => present ⟨x, stored⟩)

/-- The merged factors, raised, are what the bases come to. -/
theorem alike_raisedTotals : Alike ((basesOf operands).map (raisedTotal n operands))
    ((mergedFactors operands).map (raisedPart n)) := by
  rw [Alike, List.map_map, List.map_map, prod_map_basesOf _ fun b e stored =>
    exists_of_mem_mergedFactors canonical stored]
  refine congrArg List.prod (List.map_congr_left fun b _ => ?_)
  rcases exponentsOf_mergedFactors_cases canonical b with none | ⟨x, _, lone⟩
  · rw [Function.comp_apply, raisedTotal, none]
    rfl
  · rw [Function.comp_apply, raisedTotal, lone]
    exact (mul_one _).symm

variable (parts : PowersApart n operands)

include parts

theorem PowersApart.canonical_raisedGroups :
    ∀ e ∈ (operands.map (raisedGroup n)).flatten, e.Canonical := by
  intro part inside
  obtain ⟨group, stored, among⟩ := List.mem_flatten.mp inside
  obtain ⟨e, member, rfl⟩ := List.mem_map.mp stored
  obtain ⟨r, found⟩ := parts.each e member
  obtain ⟨powers, _⟩ := (factorwisePower_eq_ok_iff (canonical e member)).mp found
  rcases List.mem_cons.mp among with rfl | raised
  · exact canonical_number _
  · exact canonical_raisedParts (fun b x stored =>
      ((canonical e member).factorPart.2 b x stored).2) powers part raised

theorem PowersApart.canonical_raisedPowers :
    ∀ e ∈ ((basesOf operands).map (raisedPowers n operands)).flatten, e.Canonical := by
  intro part inside
  obtain ⟨group, stored, among⟩ := List.mem_flatten.mp inside
  obtain ⟨b, _, rfl⟩ := List.mem_map.mp stored
  obtain ⟨x, carried, rfl⟩ := List.mem_map.mp among
  obtain ⟨e, member, inside⟩ := List.mem_flatMap.mp (mem_exponentsOf_iff.mp carried)
  refine parts.canonical_raisedGroups canonical _ (List.mem_flatten.mpr
    ⟨_, List.mem_map_of_mem member, List.mem_cons_of_mem _ (List.mem_map_of_mem inside)⟩)

theorem PowersApart.canonical_mergedPowers :
    ∀ r ∈ (mergedFactors operands).map (raisedPart n), r.Canonical :=
  have collected := (merged_mergedFactors canonical).collected
  canonical_raisedParts (fun b x stored => ⟨collected.bases_canonical b x stored,
    collected.exponents_canonical b x stored⟩) parts.merged

/-- Multiplied out operand by operand, the raised factors make what they make at once. -/
theorem PowersApart.productOf_powers {w : Expr} {powers : List Expr}
    (whole : (productOf (operands.map (raisedGroup n)).flatten : Except Error Expr) = .ok w)
    (each : List.Forall₂ (fun e s => ∀ r, factorwisePower n e = .ok r → r = s) operands powers) :
    (productOf powers : Except Error Expr) = .ok w := by
  have members := (List.forall₂_and_left operands powers).mpr
    ⟨fun e member => And.intro member (parts.each e member), each⟩
  have found : List.Forall₂ (fun group r => (productOf group : Except Error Expr) = .ok r)
      (operands.map (raisedGroup n)) powers := by
    refine List.forall₂_map_left_iff.mpr (members.imp ?_)
    rintro e s ⟨⟨member, r, power⟩, same⟩
    rw [← same r power]
    exact ((factorwisePower_eq_ok_iff (canonical e member)).mp power).2
  exact parts.by_operand.productOf_append (parts.canonical_raisedGroups canonical) found whole

/-- Multiplied out base by base, they make what the merged factors make when these are raised. -/
theorem PowersApart.productOf_mergedPowers {w : Expr}
    (whole : (productOf (operands.map (raisedGroup n)).flatten : Except Error Expr) = .ok w) :
    (productOf (number (collectCoefficient operands ^ n) ::
      (mergedFactors operands).map (raisedPart n)) : Except Error Expr) = .ok w := by
  have canonical_powers := parts.canonical_mergedPowers canonical
  have canonical_bases := List.forall_mem_cons.mpr ⟨canonical_number (collectCoefficient operands ^ n),
    parts.canonical_raisedPowers canonical⟩
  have found : List.Forall₂ (fun group r => (productOf group : Except Error Expr) = .ok r)
      ((basesOf operands).map (raisedPowers n operands))
      ((basesOf operands).map (raisedTotal n operands)) := by
    refine List.forall₂_map_left_iff.mpr (List.forall₂_map_right_iff.mpr
      (List.forall₂_same.mpr fun b _ => ?_))
    rw [parts.added b, raisedTotal]
    rcases exponentsOf_mergedFactors_cases canonical b with none | ⟨x, stored, lone⟩
    · rw [none]
      exact @productOf_of_canonicalFactors [] fun _ _ stored => absurd stored List.not_mem_nil
    · rw [lone]
      exact productOf_singleton (canonical_powers _ (List.mem_map_of_mem stored))
  have canonical_totals := canonical_products (parts.canonical_raisedPowers canonical) found
  rw [(alike_raisedGroups n operands).productOf_eq (parts.canonical_raisedGroups canonical)
    canonical_bases] at whole
  rw [← parts.by_base.productOf_append canonical_bases found whole]
  exact ((alike_raisedTotals canonical).symm.append_left [_]).productOf_eq
    (List.forall_mem_cons.mpr ⟨canonical_number _, canonical_powers⟩)
    (List.forall_mem_cons.mpr ⟨canonical_number _, canonical_totals⟩)

end Apart

/-- A canonical expression whose factors are powers of symbols, functions and formal derivatives. -/
structure Expr.OverIndeterminates (e : Expr) : Prop where
  canonical : e.Canonical
  bases : ∀ b x, (b, x) ∈ e.factorPart → b.IsIndeterminate

theorem overIndeterminates_number (q : Rat) : (number q).OverIndeterminates :=
  ⟨canonical_number q, fun _ _ stored => absurd stored List.not_mem_nil⟩

section Products

variable {operands : List Expr} (each : ∀ e ∈ operands, e.OverIndeterminates)

include each

/-- Without bases that could fold, a product is put together in one pass. -/
theorem canonicalFactor_of_indeterminates {b x : Expr} (stored : (b, x) ∈ mergedFactors operands) :
    b.IsIndeterminate ∧ x ≠ number 0 ∧ CanonicalFactor b x := by
  obtain ⟨f, carried⟩ :=
    exists_of_mem_mergedFactors (fun e member => (each e member).canonical) stored
  obtain ⟨e, member, inside⟩ := List.mem_flatMap.mp carried
  have form := (each e member).bases b f inside
  have nonzero := (mem_mergedFactors_iff.mp stored).2
  exact ⟨form, nonzero, canonicalFactor_of_free form.not_raisesInside nonzero⟩

theorem exists_productOf_of_indeterminates :
    ∃ r, (productOf operands : Except Error Expr) = .ok r :=
  ⟨_, productOf_of_canonicalFactors fun _ _ stored =>
    (canonicalFactor_of_indeterminates each stored).2.2⟩

theorem replaceable_of_indeterminates (others : List Expr) : Replaceable others operands :=
  replaceable_of_unchanged others
    (fun _ _ stored => (canonicalFactor_of_indeterminates each stored).2.2) fun _ _ lone =>
      absurd (canonicalFactor_of_indeterminates each (lone ▸ List.mem_singleton_self _)).1 id

end Products

section Raised

variable {n : Int} (nonzero : n ≠ 0)

include nonzero

theorem canonicalFactor_scale {b x : Expr} (form : b.IsIndeterminate) (exponent : x.Canonical)
    (other : x ≠ number 0) : CanonicalFactor b (x.scale n) := by
  refine canonicalFactor_of_free form.not_raisesInside fun zero => other ?_
  rw [(scale_eq_number_iff exponent (Int.cast_ne_zero.mpr nonzero)).mp zero, mul_zero]

/-- What the powers of an indeterminate contribute to a product. -/
theorem prod_share_powers {b : Expr} {exponents : List Expr} (form : b.IsIndeterminate)
    (each : ∀ x ∈ exponents, x.Canonical ∧ x ≠ number 0) :
    ((exponents.map fun x => raisedPart n (b, x)).map share).prod =
      (1, .ofAdd fun k c => if b = c then n * (exponents.map (coordinate k)).sum else 0) := by
  induction exponents with
  | nil =>
    refine Prod.ext rfl (Multiplicative.toAdd.injective (funext fun k => funext fun c => ?_))
    simp
  | cons x rest ih =>
    obtain ⟨⟨exponent, other⟩, later⟩ := List.forall_mem_cons.mp each
    have factor := canonicalFactor_scale nonzero form exponent other
    rw [List.map_cons, List.map_cons, List.prod_cons, ih later,
      raisedPart_eq (powerOf_of_canonicalFactor factor)]
    refine Prod.ext ?_ (Multiplicative.toAdd.injective (funext fun k => funext fun c => ?_))
    · exact (mul_one _).trans (coefficientPart_ofFactor factor)
    · have first : exponentCoordinate k c (ofFactor (b, x.scale n)).factorPart =
          if b = c then n * coordinate k x else 0 := by
        rw [factorPart_ofFactor factor, exponentCoordinate_cons, coordinate_scale exponent]
        exact add_zero _
      have sum : exponentCoordinate k c (ofFactor (b, x.scale n)).factorPart +
          (if b = c then n * (rest.map (coordinate k)).sum else 0) =
          if b = c then n * (coordinate k x + (rest.map (coordinate k)).sum) else 0 := by
        rw [first]
        split
        · rw [mul_add]
        · rw [add_zero]
      exact sum

variable {operands : List Expr} (each : ∀ e ∈ operands, e.OverIndeterminates)

include each

theorem overIndeterminates_raisedPart {b x : Expr}
    (carried : (b, x) ∈ operands.flatMap factorPart) : (raisedPart n (b, x)).OverIndeterminates := by
  obtain ⟨e, member, stored⟩ := List.mem_flatMap.mp carried
  have ⟨factor, base, exponent⟩ := (each e member).canonical.factorPart.2 b x stored
  have form := (each e member).bases b x stored
  have raised := canonicalFactor_scale nonzero form exponent factor.exponent
  have power := powerOf_of_canonicalFactor raised
  rw [raisedPart_eq power]
  refine ⟨canonical_powerOf power base (exponent.scale n), fun c y inside => ?_⟩
  rw [factorPart_ofFactor raised] at inside
  cases List.mem_singleton.mp inside
  exact form

theorem overIndeterminates_raisedGroup {e : Expr} (member : e ∈ operands) :
    ∀ part ∈ raisedGroup n e, part.OverIndeterminates := by
  refine List.forall_mem_cons.mpr ⟨overIndeterminates_number _, fun part among => ?_⟩
  obtain ⟨⟨b, x⟩, stored, rfl⟩ := List.mem_map.mp among
  exact overIndeterminates_raisedPart nonzero each (List.mem_flatMap.mpr ⟨e, member, stored⟩)

theorem overIndeterminates_raisedPowers (b : Expr) :
    ∀ part ∈ raisedPowers n operands b, part.OverIndeterminates := by
  intro part among
  obtain ⟨x, carried, rfl⟩ := List.mem_map.mp among
  exact overIndeterminates_raisedPart nonzero each (mem_exponentsOf_iff.mp carried)

theorem productOf_raisedPowers_of_indeterminates (b : Expr) :
    (productOf (raisedPowers n operands b) : Except Error Expr) =
      productOf ((exponentsOf b (mergedFactors operands)).map fun x => raisedPart n (b, x)) := by
  have canonical := fun e member => (each e member).canonical
  have merged := merged_mergedFactors canonical
  have parts := fun e member => (overIndeterminates_raisedPowers nonzero each b e member).canonical
  by_cases present : ∃ x, (b, x) ∈ operands.flatMap factorPart
  · obtain ⟨f, carried⟩ := present
    obtain ⟨e, member, inside⟩ := List.mem_flatMap.mp carried
    have form := (each e member).bases b f inside
    refine Alike.productOf_eq (Eq.trans (prod_share_powers nonzero form ?_)
      (Eq.trans ?_ (prod_share_powers nonzero form ?_).symm)) parts ?_
    · intro x carried
      obtain ⟨e, member, inside⟩ := List.mem_flatMap.mp (mem_exponentsOf_iff.mp carried)
      have ⟨factor, _, exponent⟩ := (canonical e member).factorPart.2 b x inside
      exact ⟨exponent, factor.exponent⟩
    · have total (k : Option Expr) := exponentCoordinate_mergedFactors canonical k b
      simp only [exponentCoordinate] at total
      simp only [total]
    · intro x stored
      have stored := mem_exponentsOf_iff.mp stored
      exact ⟨merged.collected.exponents_canonical b x stored, merged.nonzero b x stored⟩
    · intro r among
      obtain ⟨x, stored, rfl⟩ := List.mem_map.mp among
      have stored := mem_exponentsOf_iff.mp stored
      have exponent := merged.collected.exponents_canonical b x stored
      have power := powerOf_of_canonicalFactor
        (canonicalFactor_scale nonzero form exponent (merged.nonzero b x stored))
      rw [raisedPart_eq power]
      exact canonical_powerOf power (merged.collected.bases_canonical b x stored) (exponent.scale n)
  · have absent (x : Expr) : (b, x) ∉ mergedFactors operands := fun stored =>
      present (exists_of_mem_mergedFactors canonical stored)
    rw [raisedPowers, exponentsOf_eq_nil fun x carried => present ⟨x, carried⟩,
      exponentsOf_eq_nil absent]

/-- Powers of symbols, functions and formal derivatives can always be raised apart. -/
theorem powersApart_of_indeterminates : PowersApart n operands where
  each e member := by
    obtain ⟨r, found⟩ :=
      exists_productOf_of_indeterminates (overIndeterminates_raisedGroup nonzero each member)
    refine ⟨r, (factorwisePower_eq_ok_iff (each e member).canonical).mpr ⟨fun b x inside => ?_, found⟩⟩
    have ⟨factor, _, exponent⟩ := (each e member).canonical.factorPart.2 b x inside
    exact ⟨_, powerOf_of_canonicalFactor
      (canonicalFactor_scale nonzero ((each e member).bases b x inside) exponent factor.exponent)⟩
  merged b x stored := by
    obtain ⟨form, other, _⟩ := canonicalFactor_of_indeterminates each stored
    have merged := merged_mergedFactors fun e member => (each e member).canonical
    exact ⟨_, powerOf_of_canonicalFactor
      (canonicalFactor_scale nonzero form (merged.collected.exponents_canonical b x stored) other)⟩
  whole := exists_productOf_of_indeterminates fun part inside => by
    obtain ⟨group, stored, among⟩ := List.mem_flatten.mp inside
    obtain ⟨e, member, rfl⟩ := List.mem_map.mp stored
    exact overIndeterminates_raisedGroup nonzero each member part among
  by_operand := regroupable_of_forall (fun group stored => by
    obtain ⟨e, member, rfl⟩ := List.mem_map.mp stored
    exact replaceable_of_indeterminates (overIndeterminates_raisedGroup nonzero each member)) _
  by_base := regroupable_of_forall (fun group stored => by
    obtain ⟨b, _, rfl⟩ := List.mem_map.mp stored
    exact replaceable_of_indeterminates (overIndeterminates_raisedPowers nonzero each b)) _
  added := productOf_raisedPowers_of_indeterminates nonzero each

end Raised

end SymbolicAlgebra
