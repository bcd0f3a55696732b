import SymbolicAlgebra.Proofs.FactorRuns
import SymbolicAlgebra.Proofs.Polynomials
import SymbolicAlgebra.Proofs.Summands

namespace SymbolicAlgebra

open SymbolicAlgebra.Expr

namespace Expr

/-- What an expression is made of, if functions and formal derivatives are not looked into. -/
def openParts : Expr → List Expr
  | sum _ terms => terms.map Prod.fst
  | product _ factors => factors.map Prod.fst ++ factors.map Prod.snd
  | power b e => [b, e]
  | _ => []

/-- The base is raised to the exponent somewhere in the expression, as a power or as a factor of a
product, but not in the arguments of functions and formal derivatives. -/
inductive Raises : Expr → Expr → Expr → Prop where
  | power {b x} : Raises (power b x) b x
  | factor {q factors b x} (stored : (b, x) ∈ factors) : Raises (product q factors) b x
  | within {e part b x} (stored : part ∈ e.openParts) (deeper : Raises part b x) : Raises e b x

/-- A requirement is met wherever a base is raised to an exponent. -/
def Each (S : Factor → Prop) (e : Expr) : Prop :=
  ∀ b x, e.Raises b x → S (b, x)

/-- A requirement is met by a factor, and wherever a base is raised in the factor. -/
structure Throughout (S : Factor → Prop) (factor : Factor) : Prop where
  here : S factor
  base : factor.1.Each S
  exponent : factor.2.Each S

variable {S : Factor → Prop}

theorem Each.part {e part : Expr} (each : e.Each S) (stored : part ∈ e.openParts) : part.Each S :=
  fun b x raises => each b x (.within stored raises)

theorem each_number (q : Rat) : (number q).Each S := by
  intro b x raises
  cases raises with
  | within stored => cases stored

theorem each_of_isIndeterminate {e : Expr} (form : e.IsIndeterminate) : e.Each S := by
  intro b x raises
  cases raises with
  | power => exact absurd form id
  | factor => exact absurd form id
  | within stored => cases e <;> first | exact absurd form id | cases stored

theorem each_sum {constant : Rat} {terms : List Multiple} :
    (sum constant terms).Each S ↔ ∀ t q, (t, q) ∈ terms → t.Each S := by
  constructor
  · exact fun each t q stored => each.part (List.mem_map_of_mem (f := Prod.fst) stored)
  · intro each b x raises
    cases raises with
    | within stored deeper =>
      obtain ⟨⟨t, q⟩, inside, rfl⟩ := List.mem_map.mp stored
      exact each t q inside b x deeper

theorem each_product {q : Rat} {factors : List Factor} :
    (product q factors).Each S ↔ ∀ factor ∈ factors, Throughout S factor := by
  constructor
  · intro each factor stored
    exact ⟨each _ _ (.factor stored),
      each.part (List.mem_append_left _ (List.mem_map_of_mem (f := Prod.fst) stored)),
      each.part (List.mem_append_right _ (List.mem_map_of_mem (f := Prod.snd) stored))⟩
  · intro each b x raises
    cases raises with
    | factor stored => exact (each _ stored).here
    | within stored deeper =>
      rcases List.mem_append.mp stored with stored | stored
      · obtain ⟨factor, inside, rfl⟩ := List.mem_map.mp stored
        exact (each factor inside).base b x deeper
      · obtain ⟨factor, inside, rfl⟩ := List.mem_map.mp stored
        exact (each factor inside).exponent b x deeper

theorem each_power {b x : Expr} : (power b x).Each S ↔ Throughout S (b, x) := by
  constructor
  · exact fun each => ⟨each b x .power, each.part (by simp [openParts]),
      each.part (by simp [openParts])⟩
  · intro throughout c y raises
    cases raises with
    | power => exact throughout.here
    | within stored deeper =>
      rcases List.mem_pair.mp stored with rfl | rfl
      · exact throughout.base c y deeper
      · exact throughout.exponent c y deeper

theorem Throughout.ofFactor {factor : Factor} (throughout : Throughout S factor) :
    (ofFactor factor).Each S := by
  unfold Expr.ofFactor
  split
  · exact throughout.base
  · exact each_power.mpr throughout

theorem each_withCoefficient (q : Rat) {factors : List Factor}
    (every : ∀ factor ∈ factors, Throughout S factor) : (withCoefficient q factors).Each S := by
  unfold withCoefficient
  split
  · exact each_number 0
  · split
    · exact each_number q
    · split
      · exact (List.forall_mem_singleton.mp every).ofFactor
      · exact each_product.mpr every
    · exact each_product.mpr every

/-- The factors of a product speak for the product. -/
theorem each_of_factorPart {e : Expr} (every : ∀ factor ∈ e.factorPart, Throughout S factor) :
    e.Each S := by
  cases e with
  | number q => exact each_number q
  | product q factors => exact each_product.mpr every
  | power b x => exact each_power.mpr (List.forall_mem_singleton.mp every)
  | _ => exact (List.forall_mem_singleton.mp every).base

/-- A requirement that is met by all that is raised in an expression is met in its factors. -/
theorem Each.factor {e b x : Expr} (each : e.Each S) (member : (b, x) ∈ e.factorPart) :
    b.Each S ∧ x.Each S := by
  rcases mem_factorPart_cases member with ⟨q, factors, rfl, stored⟩ | rfl | ⟨rfl, rfl⟩
  · exact ⟨(each_product.mp each _ stored).base, (each_product.mp each _ stored).exponent⟩
  · exact ⟨(each_power.mp each).base, (each_power.mp each).exponent⟩
  · exact ⟨each, each_number 1⟩

theorem Each.termPart {e t : Expr} {q : Rat} (each : e.Each S) (member : (t, q) ∈ e.termPart) :
    t.Each S := by
  cases e with
  | number r => cases member
  | sum c terms => exact each_sum.mp each t q member
  | product r factors =>
    cases List.mem_singleton.mp member
    exact each_withCoefficient 1 (each_product.mp each)
  | _ =>
    cases List.mem_singleton.mp member
    exact each

end Expr

/-- A requirement on bases with their exponents that functions, formal derivatives and symbols meet
on their own, and that products and powers keep. -/
structure RaisingLaws (S : Factor → Prop) : Prop where
  unit : ∀ {b}, b.IsIndeterminate → S (b, number 1)
  merge : Mergeable S
  inside : ∀ {b} {n : Int}, b.Canonical → b.Each S → S (b, number n) →
    ∀ {c f}, (c, f) ∈ b.factorPart → S (c, f.scale n)
  multiple : ∀ {c terms q}, q ≠ 0 → S (sum c terms, number 1) →
    S ((sum c terms).scale q, number 1)

namespace RaisingLaws

variable {S : Factor → Prop} (laws : RaisingLaws S)

include laws

/-- The factors of what is not a sum. A sum enters a product with the exponent one, which it need
not be raised to anywhere else. -/
theorem factorPart {e : Expr} (each : e.Each S) (not_sum : ∀ c terms, e ≠ sum c terms) :
    ∀ factor ∈ e.factorPart, Throughout S factor := by
  have bare (form : e.IsIndeterminate) (part : e.factorPart = [(e, number 1)]) :
      ∀ factor ∈ e.factorPart, Throughout S factor := by
    rw [part]
    exact List.forall_mem_singleton.mpr ⟨laws.unit form, each, each_number 1⟩
  cases e with
  | number q => exact List.forall_mem_nil _
  | sum c terms => exact absurd rfl (not_sum c terms)
  | product q factors => exact each_product.mp each
  | power b x => exact List.forall_mem_singleton.mpr (each_power.mp each)
  | _ => exact bare trivial rfl

theorem keptFactors {factors : List Factor} (kept : KeptFactors factors) {q : Rat}
    (nonzero : q ≠ 0) (each : (withCoefficient q factors).Each S) :
    ∀ factor ∈ factors, Throughout S factor := by
  have every := laws.factorPart each (kept.withCoefficient_ne_sum nonzero)
  rwa [kept.factorPart_withCoefficient nonzero] at every

theorem each_scale {e : Expr} (canonical : e.Canonical) (each : e.Each S) (q : Rat) :
    (e.scale q).Each S := by
  by_cases zero : q = 0
  · rw [zero, scale_zero]
    exact each_number 0
  cases canonical.shape with
  | number r =>
    rw [scale_number]
    exact each_number _
  | sum form terms_canonical =>
    rw [scale_sum zero, each_sum]
    rintro t r member
    obtain ⟨⟨u, s⟩, stored, same⟩ := List.mem_map.mp member
    cases same
    exact each_sum.mp each t s stored
  | multiple nonzero kept =>
    rw [kept.scale_withCoefficient]
    exact each_withCoefficient _ (laws.keptFactors kept nonzero each)

/-- Sums raise nothing that is not raised in their operands. -/
theorem each_sumOf {es : List Expr} (canonical : ∀ e ∈ es, e.Canonical)
    (each : ∀ e ∈ es, e.Each S) : (sumOf es).Each S := by
  have total := canonical_sumOf canonical
  have terms : ∀ t q, (t, q) ∈ (sumOf es).termPart → t.Each S := by
    intro t q member
    obtain ⟨e, summand, r, part⟩ := exists_of_mem_termPart_sumOf canonical member
    exact (each e summand).termPart part
  generalize sumOf es = e at total terms ⊢
  cases total.shape with
  | number q => exact each_number q
  | sum form terms_canonical => exact each_sum.mpr terms
  | multiple nonzero kept =>
    rw [kept.termPart_withCoefficient nonzero] at terms
    have unit := terms _ _ (List.mem_singleton_self _)
    exact each_withCoefficient _ (laws.keptFactors kept one_ne_zero unit)

/-- The parts that products are distributed over are no sums. -/
theorem each_summandsOf {e : Expr} (canonical : e.Canonical) (each : e.Each S) :
    ∀ s ∈ summandsOf e, s.Each S ∧ ∀ c terms, s ≠ sum c terms := by
  refine fun s member => ⟨?_, ne_sum_of_mem_summandsOf canonical member⟩
  rcases mem_summandsOf_cases member with ⟨c, terms, rfl, inside⟩ | ⟨_, rfl⟩
  · rw [operands_sum] at inside
    rcases List.mem_append.mp inside with inside | inside
    · obtain ⟨⟨t, q⟩, stored, rfl⟩ := List.mem_map.mp inside
      cases canonical with
      | sum form terms_canonical =>
        exact laws.each_scale (terms_canonical t q stored) (each_sum.mp each t q stored) q
    · rw [eq_number_of_mem_constantSummands inside]
      exact each_number c
  · exact each

/-- Together with what is raised inside, the requirement is one of factors. -/
theorem factorLaws : FactorLaws (Throughout S) where
  merge b e f left right first second :=
    ⟨laws.merge left right first.here second.here, first.base,
      laws.each_sumOf (canonical_pair left right) (by simp [first.exponent, second.exponent])⟩
  inside canonical throughout c f member := by
    have exponent := (canonical.factorPart.2 c f member).2.2
    obtain ⟨base, each⟩ := throughout.base.factor member
    exact ⟨laws.inside canonical throughout.base throughout.here member, base,
      laws.each_scale exponent each _⟩
  multiple nonzero throughout := by
    refine ⟨laws.multiple nonzero throughout.here, ?_, each_number 1⟩
    have terms := each_sum.mp throughout.base
    rw [scale_sum nonzero, each_sum]
    rintro t r member
    obtain ⟨⟨u, s⟩, stored, same⟩ := List.mem_map.mp member
    cases same
    exact terms t s stored

end RaisingLaws

end SymbolicAlgebra
