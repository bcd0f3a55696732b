import SymbolicAlgebra.Proofs.Scaling

namespace SymbolicAlgebra

open SymbolicAlgebra.Expr

/-- Factors as they are collected from canonical operands: merged, but not yet raised. -/
structure Collected (factors : List Factor) : Prop where
  increasing : Increasing factors
  bases_canonical : ∀ b e, (b, e) ∈ factors → b.Canonical
  exponents_canonical : ∀ b e, (b, e) ∈ factors → e.Canonical

theorem collected_nil : Collected [] := by
  refine ⟨List.Pairwise.nil, ?_, ?_⟩ <;> intro b e member <;> cases member

theorem Collected.cons {b e : Expr} {factors : List Factor} (collected : Collected factors)
    (base : b.Canonical) (exponent : e.Canonical)
    (least : ∀ other ∈ factors, b.compare other.1 = .lt) : Collected ((b, e) :: factors) where
  increasing := List.pairwise_cons.mpr ⟨least, collected.increasing⟩
  bases_canonical c f member := by
    rcases List.mem_cons.mp member with equal | later
    · cases equal
      exact base
    · exact collected.bases_canonical c f later
  exponents_canonical c f member := by
    rcases List.mem_cons.mp member with equal | later
    · cases equal
      exact exponent
    · exact collected.exponents_canonical c f later

theorem Collected.tail {head : Factor} {rest : List Factor} (collected : Collected (head :: rest)) :
    Collected rest where
  increasing := (List.pairwise_cons.mp collected.increasing).2
  bases_canonical b e member := collected.bases_canonical b e (List.mem_cons_of_mem _ member)
  exponents_canonical b e member :=
    collected.exponents_canonical b e (List.mem_cons_of_mem _ member)

theorem base_of_mem_insertFactor {factor other : Factor} {factors : List Factor}
    (member : other ∈ insertFactor factor factors) :
    other.1 = factor.1 ∨ ∃ e, (other.1, e) ∈ factors := by
  induction factors with
  | nil =>
    cases List.mem_singleton.mp member
    exact .inl rfl
  | cons head rest ih =>
    obtain ⟨b, e⟩ := head
    rw [insertFactor] at member
    split at member
    · rcases List.mem_cons.mp member with rfl | inside
      · exact .inl rfl
      · exact .inr ⟨other.2, inside⟩
    · rcases List.mem_cons.mp member with rfl | inside
      · exact .inr ⟨e, List.mem_cons_self ..⟩
      · exact .inr ⟨other.2, List.mem_cons_of_mem _ inside⟩
    · rcases List.mem_cons.mp member with rfl | inside
      · exact .inr ⟨e, List.mem_cons_self ..⟩
      · rcases ih inside with same | ⟨f, found⟩
        · exact .inl same
        · exact .inr ⟨f, List.mem_cons_of_mem _ found⟩

/-- Multiplying in a factor keeps the bases apart and in order. -/
theorem Collected.insertFactor {b e : Expr} {factors : List Factor} (collected : Collected factors)
    (base : b.Canonical) (exponent : e.Canonical) :
    Collected (SymbolicAlgebra.insertFactor (b, e) factors) := by
  induction factors with
  | nil => exact collected_nil.cons base exponent fun other member => by cases member
  | cons head rest ih =>
    obtain ⟨c, f⟩ := head
    have base_head := collected.bases_canonical c f (List.mem_cons_self ..)
    have exponent_head := collected.exponents_canonical c f (List.mem_cons_self ..)
    have least := (List.pairwise_cons.mp collected.increasing).1
    rw [SymbolicAlgebra.insertFactor]
    split
    · rename_i less
      refine collected.cons base exponent fun other member => ?_
      rcases List.mem_cons.mp member with rfl | later
      · exact less
      · exact Std.TransCmp.lt_trans less (least other later)
    · exact collected.tail.cons base_head (canonical_sumOf_pair exponent exponent_head) least
    · rename_i greater
      have below : c.compare b = .lt := by
        rw [@Std.OrientedCmp.eq_swap _ Expr.compare _ c b, greater]
        rfl
      refine (ih collected.tail).cons base_head exponent_head fun other member => ?_
      rcases base_of_mem_insertFactor member with same | ⟨e', found⟩
      · rw [same]
        exact below
      · exact least (other.1, e') found

theorem canonical_factorParts {operands : List Expr} (canonical : ∀ e ∈ operands, e.Canonical) :
    ∀ b e, (b, e) ∈ operands.flatMap factorPart → b.Canonical ∧ e.Canonical := by
  intro b e member
  obtain ⟨operand, inside, part⟩ := List.mem_flatMap.mp member
  exact ((canonical operand inside).factorPart.2 b e part).2

theorem collected_foldr {factors : List Factor}
    (canonical : ∀ b e, (b, e) ∈ factors → b.Canonical ∧ e.Canonical) :
    Collected (factors.foldr insertFactor []) := by
  induction factors with
  | nil => exact collected_nil
  | cons head rest ih =>
    have here := canonical head.1 head.2 (List.mem_cons_self ..)
    have collected := ih fun b e member => canonical b e (List.mem_cons_of_mem _ member)
    exact collected.insertFactor here.1 here.2

theorem collected_collectFactors {operands : List Expr}
    (canonical : ∀ e ∈ operands, e.Canonical) : Collected (collectFactors operands) :=
  collected_foldr (canonical_factorParts canonical)

/-- Collected factors that are canonical can be kept, unless there are none or just a sum. -/
theorem Collected.kept_cases {factors : List Factor} (collected : Collected factors)
    (each : ∀ b e, (b, e) ∈ factors → CanonicalFactor b e) :
    factors = [] ∨ (∃ c terms, factors = [(sum c terms, number 1)]) ∨ KeptFactors factors := by
  by_cases empty : factors = []
  · exact .inl empty
  by_cases lone : ∃ c terms, factors = [(sum c terms, number 1)]
  · exact .inr (.inl lone)
  have not_lone : ∀ c terms, factors ≠ [(sum c terms, number 1)] := fun c terms same =>
    lone ⟨c, terms, same⟩
  exact .inr (.inr ⟨empty, collected.increasing, each, not_lone, collected.bases_canonical,
    collected.exponents_canonical⟩)

/-- Canonical factors with bases in order make a canonical product. -/
theorem canonical_assembleProduct {q : Rat} {factors : List Factor} (nonzero : q ≠ 0)
    (collected : Collected factors) (each : ∀ b e, (b, e) ∈ factors → CanonicalFactor b e) :
    (assembleProduct q factors).Canonical := by
  rcases collected.kept_cases each with rfl | ⟨c, terms, rfl⟩ | kept
  · exact canonical_number q
  · rw [assembleProduct_lone_sum]
    exact (collected.bases_canonical _ _ (List.mem_singleton_self _)).scale q
  · rw [assembleProduct_eq_withCoefficient kept nonzero]
    exact kept.canonical_withCoefficient q

/-- What stays where it is after raising, and what has to be multiplied in again. -/
structure Settled.Canonical (settled : Settled) (factors : List Factor) : Prop where
  sublist : settled.kept.Sublist factors
  kept : ∀ b e, (b, e) ∈ settled.kept → CanonicalFactor b e
  rewritten : ∀ r ∈ settled.rewritten, r.Canonical

theorem canonicalFactor_toFactor {r : Expr} (canonical : r.Canonical)
    (not_number : ∀ q, r ≠ number q) (not_product : ∀ q factors, r ≠ product q factors) :
    CanonicalFactor r.toFactor.1 r.toFactor.2 := by
  refine canonicalFactor_iff.mpr ?_
  cases canonical with
  | number form => exact absurd rfl (not_number _)
  | product form bases exponents => exact absurd rfl (not_product _ _)
  | power form base exponent => exact .inr form
  | _ => exact .inl ⟨rfl, Bool.false_ne_true⟩

theorem Settled.Canonical.add {settled : Settled} {factor : Factor} {factors : List Factor}
    {r : Expr} (canonical : settled.Canonical factors) (raised : r.Canonical) :
    (settled.add factor r).Canonical (factor :: factors) := by
  rcases Settled.add_cases (Eq.refl (settled.add factor r)) with ⟨q, rfl, added⟩ |
    ⟨not_number, not_product, rfl, added⟩ | ⟨_, added⟩
  · rw [added]
    exact ⟨canonical.sublist.cons _, canonical.kept, canonical.rewritten⟩
  · rw [added]
    refine ⟨canonical.sublist.cons_cons _, fun b e member => ?_, canonical.rewritten⟩
    rcases List.mem_cons.mp member with same | later
    · rw [show b = r.toFactor.1 from congrArg Prod.fst same,
        show e = r.toFactor.2 from congrArg Prod.snd same]
      exact canonicalFactor_toFactor raised not_number not_product
    · exact canonical.kept b e later
  · rw [added]
    refine ⟨canonical.sublist.cons _, canonical.kept, fun other member => ?_⟩
    rcases List.mem_cons.mp member with rfl | later
    · exact raised
    · exact canonical.rewritten other later

theorem canonical_partsOf {factors : List Factor}
    (each : ∀ b e, (b, e) ∈ factors → CanonicalFactor b e)
    (bases : ∀ b e, (b, e) ∈ factors → b.Canonical)
    (exponents : ∀ b e, (b, e) ∈ factors → e.Canonical) : ∀ e ∈ partsOf factors, e.Canonical := by
  intro part member
  obtain ⟨⟨b, e⟩, inside, rfl⟩ := List.mem_map.mp member
  exact canonical_ofFactor (each b e inside) (bases b e inside) (exponents b e inside)

theorem Expr.KeptFactors.canonical_partsOf {factors : List Factor} (kept : KeptFactors factors) :
    ∀ e ∈ partsOf factors, e.Canonical :=
  SymbolicAlgebra.canonical_partsOf kept.factor kept.bases_canonical kept.exponents_canonical

theorem Collected.sublist {factors others : List Factor} (collected : Collected others)
    (sublist : factors.Sublist others) : Collected factors where
  increasing := collected.increasing.sublist sublist
  bases_canonical b e member := collected.bases_canonical b e (sublist.subset member)
  exponents_canonical b e member := collected.exponents_canonical b e (sublist.subset member)

/-- In any order the collected factors are made of canonical expressions. -/
theorem Collected.of_perm {factors others : List Factor} (collected : Collected factors)
    (perm : others.Perm factors) :
    ∀ b e, (b, e) ∈ others → b.Canonical ∧ e.Canonical := by
  intro b e member
  have stored := perm.mem_iff.mp member
  exact ⟨collected.bases_canonical b e stored, collected.exponents_canonical b e stored⟩

/-- The operands of a restart are canonical. -/
theorem Settled.Canonical.again {settled : Settled} {factors : List Factor} {q : Rat}
    (canonical : settled.Canonical factors) (collected : Collected factors) :
    ∀ e ∈ settled.rewritten ++ partsOf settled.kept ++ [number q], e.Canonical := by
  intro e member
  rcases List.mem_append.mp member with member | member
  · rcases List.mem_append.mp member with member | member
    · exact canonical.rewritten e member
    · have kept := collected.sublist canonical.sublist
      exact canonical_partsOf canonical.kept kept.bases_canonical kept.exponents_canonical e member
  · cases List.mem_singleton.mp member
    exact canonical_number q

mutual

/-- A product of canonical expressions is canonical, through every restart. -/
theorem ProductRun.canonical : ∀ {operands r}, ProductRun operands r →
    (∀ e ∈ operands, e.Canonical) → r.Canonical
  | _, _, .zero _, _ => canonical_number 0
  | _, _, .vanished _ _, _ => canonical_number 0
  | _, _, .assembled settles nonzero done, canonical => by
    have collected := collected_collectFactors canonical
    have settled := settles.canonical collected
    exact canonical_assembleProduct nonzero (collected.sublist settled.sublist) settled.kept
  | _, _, .again settles nonzero rewritten rest, canonical => by
    have collected := collected_collectFactors canonical
    exact rest.canonical ((settles.canonical collected).again collected)

theorem SettleRun.canonical : ∀ {factors settled}, SettleRun factors settled →
    Collected factors → settled.Canonical factors
  | _, _, .nil, _ => by
    refine ⟨List.nil_sublist _, ?_, ?_⟩
    · intro b e member
      cases member
    · intro r member
      cases member
  | _, _, .dropped tail, collected => by
    have settled := tail.canonical collected.tail
    exact ⟨settled.sublist.cons _, settled.kept, settled.rewritten⟩
  | _, _, .raised exponent raises tail, collected => by
    have base := collected.bases_canonical _ _ (List.mem_cons_self ..)
    have exponent := collected.exponents_canonical _ _ (List.mem_cons_self ..)
    exact (tail.canonical collected.tail).add (raises.canonical base exponent)

/-- A power of canonical expressions is canonical. -/
theorem PowerRun.canonical : ∀ {b e r}, PowerRun b e r → b.Canonical → e.Canonical → r.Canonical
  | _, _, _, .zeroBase _, _, _ => canonical_number _
  | _, _, _, .zeroExponent _, _, _ => canonical_number _
  | _, _, _, .oneExponent _, base, _ => base
  | _, _, _, .oneBase _ _, _, _ => canonical_number _
  | _, _, _, .exact _ _ _ _ _, _, _ => canonical_number _
  | _, _, _, .nested _ _ exponent inner, base, integer => by
    cases base with
    | power form base inner_exponent =>
      have total := exponent.canonical (canonical_pair inner_exponent integer)
      exact inner.canonical base total
  | _, _, _, .distributed _ _ _ powers whole, base, integer => by
    obtain ⟨_, _, kept⟩ := canonical_product_iff.mp base
    have raised := powers.canonical kept.bases_canonical kept.exponents_canonical
    refine whole.canonical fun e member => ?_
    rcases List.mem_cons.mp member with rfl | member
    · exact canonical_number _
    · exact raised e member
  | _, _, _, .kept form, base, exponent => .power form base exponent

theorem PowersRun.canonical : ∀ {factors n rs}, PowersRun factors n rs →
    (∀ b e, (b, e) ∈ factors → b.Canonical) → (∀ b e, (b, e) ∈ factors → e.Canonical) →
    ∀ r ∈ rs, r.Canonical
  | _, _, _, .nil, _, _ => by
    intro r member
    cases member
  | _, _, _, .cons exponent raises tail, bases, exponents => by
    have inner := exponents _ _ (List.mem_cons_self ..)
    have total := exponent.canonical (canonical_pair inner (canonical_number _))
    have raised := raises.canonical (bases _ _ (List.mem_cons_self ..)) total
    have others := tail.canonical (fun b e member => bases b e (List.mem_cons_of_mem _ member))
      fun b e member => exponents b e (List.mem_cons_of_mem _ member)
    intro r member
    rcases List.mem_cons.mp member with rfl | member
    · exact raised
    · exact others r member

end

theorem canonical_productOf {operands : List Expr} {r : Expr}
    (found : (productOf operands : Except Error Expr) = .ok r)
    (canonical : ∀ e ∈ operands, e.Canonical) : r.Canonical :=
  (productOf_eq_ok_iff.mp found).canonical canonical

theorem canonical_powerOf {b e r : Expr} (found : (powerOf b e : Except Error Expr) = .ok r)
    (base : b.Canonical) (exponent : e.Canonical) : r.Canonical :=
  (powerOf_eq_ok_iff.mp found).canonical base exponent

end SymbolicAlgebra
