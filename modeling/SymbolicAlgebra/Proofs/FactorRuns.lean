import SymbolicAlgebra.Proofs.MergedTotals

namespace SymbolicAlgebra

open SymbolicAlgebra.Expr

/-- A requirement on bases with their exponents that is kept when exponents of one base are added,
that goes over to what a base is raised through, and from a sum to its multiples. -/
structure FactorLaws (S : Factor → Prop) : Prop where
  merge : Mergeable S
  inside : ∀ {b} {n : Int}, b.Canonical → S (b, number n) →
    ∀ {c f}, (c, f) ∈ b.factorPart → S (c, f.scale n)
  multiple : ∀ {c terms q}, q ≠ 0 → S (sum c terms, number 1) →
    S ((sum c terms).scale q, number 1)

theorem FactorLaws.assembleProduct {S : Factor → Prop} (laws : FactorLaws S)
    {factors : List Factor} {q : Rat} (nonzero : q ≠ 0) (collected : Collected factors)
    (each : ∀ b e, (b, e) ∈ factors → CanonicalFactor b e)
    (every : ∀ factor ∈ factors, S factor) :
    ∀ factor ∈ (assembleProduct q factors).factorPart, S factor := by
  rcases collected.kept_cases each with rfl | ⟨c, terms, rfl⟩ | kept
  · exact every
  · have scaled := laws.multiple nonzero (List.forall_mem_singleton.mp every)
    rw [assembleProduct_lone_sum]
    rw [scale_sum nonzero] at scaled ⊢
    exact List.forall_mem_singleton.mpr scaled
  · rwa [assembleProduct_eq_withCoefficient kept nonzero, kept.factorPart_withCoefficient nonzero]

/-- The operands of a restart have the factors of what was kept and what was rewritten. -/
theorem Settled.forall_again {S : Factor → Prop} {settled : Settled}
    (rewritten : ∀ factor ∈ settled.rewritten.flatMap factorPart, S factor)
    (kept : ∀ factor ∈ settled.kept, S factor)
    (each : ∀ b e, (b, e) ∈ settled.kept → CanonicalFactor b e) (q : Rat) :
    ∀ factor ∈ (settled.rewritten ++ partsOf settled.kept ++ [number q]).flatMap factorPart,
      S factor := by
  rw [List.flatMap_append, List.flatMap_append, flatMap_factorPart_partsOf each]
  exact List.forall_mem_append.mpr
    ⟨List.forall_mem_append.mpr ⟨rewritten, kept⟩, List.forall_mem_nil _⟩

/-- What comes of an exponent times an integer is the scaled exponent. -/
theorem ProductRun.eq_scale {f k : Expr} {n : Int} (canonical : f.Canonical)
    (run : ProductRun [f, number n] k) : k = f.scale n :=
  Except.ok.inj (run.productOf_eq_ok.symm.trans (productOf_number_right n canonical))

section Runs

variable {S : Factor → Prop}

mutual

/-- A requirement that the factors of all operands meet is met by the factors of their product. -/
theorem ProductRun.everyFactor (laws : FactorLaws S) : ∀ {operands r}, ProductRun operands r →
    (∀ e ∈ operands, e.Canonical) → (∀ factor ∈ operands.flatMap factorPart, S factor) →
    ∀ factor ∈ r.factorPart, S factor
  | _, _, .zero _, _, _ => List.forall_mem_nil _
  | _, _, .vanished _ _, _, _ => List.forall_mem_nil _
  | _, _, .assembled settles nonzero done, canonical, every => by
    have collected := collected_collectFactors canonical
    have form := settles.canonical collected
    have every := laws.merge.collectFactors canonical every
    exact laws.assembleProduct nonzero (collected.sublist form.sublist) form.kept
      fun factor member => every factor (form.sublist.subset member)
  | _, _, .again settles nonzero rewritten rest, canonical, every => by
    have collected := collected_collectFactors canonical
    have form := settles.canonical collected
    have every := laws.merge.collectFactors canonical every
    have reshaped := settles.everyFactor laws collected every
    have kept := fun factor member => every factor (form.sublist.subset member)
    exact rest.everyFactor laws (form.again collected)
      (Settled.forall_again reshaped kept form.kept _)

theorem SettleRun.everyFactor (laws : FactorLaws S) : ∀ {factors settled},
    SettleRun factors settled → Collected factors → (∀ factor ∈ factors, S factor) →
    ∀ factor ∈ settled.rewritten.flatMap factorPart, S factor
  | _, _, .nil, _, _ => List.forall_mem_nil _
  | _, _, .dropped tail, collected, every =>
    tail.everyFactor laws collected.tail (List.forall_mem_cons.mp every).2
  | _, _, @SettleRun.raised b e r rest settled exponent raises tail, collected, every => by
    obtain ⟨first, later⟩ := List.forall_mem_cons.mp every
    have base := collected.bases_canonical b e (List.mem_cons_self ..)
    have exponent := collected.exponents_canonical b e (List.mem_cons_self ..)
    have rewritten := tail.everyFactor laws collected.tail later
    have raised := raises.everyFactor laws base exponent first
    rcases Settled.add_cases (Eq.refl (settled.add (b, e) r)) with ⟨q, rfl, added⟩ |
      ⟨_, _, _, added⟩ | ⟨_, added⟩
    · rwa [added]
    · rwa [added]
    · rw [added, List.flatMap_cons]
      exact List.forall_mem_append.mpr ⟨raised, rewritten⟩

/-- The factors of a power are its base or what that is raised through. -/
theorem PowerRun.everyFactor (laws : FactorLaws S) : ∀ {b e r}, PowerRun b e r → b.Canonical →
    e.Canonical → S (b, e) → ∀ factor ∈ r.factorPart, S factor
  | _, _, _, .zeroBase _, _, _, _ => List.forall_mem_nil _
  | _, _, _, .zeroExponent _, _, _, _ => List.forall_mem_nil _
  | b, _, _, .oneExponent _, canonical, _, first => by
    rw [← Int.cast_one] at first
    intro factor member
    have raised := laws.inside canonical first member
    rwa [Int.cast_one, scale_one] at raised
  | _, _, _, .oneBase _ _, _, _, _ => List.forall_mem_nil _
  | _, _, _, .exact _ _ _ _ _, _, _, _ => List.forall_mem_nil _
  | _, _, _, .nested _ _ exponent inner, canonical, integer, factor => by
    have raised := laws.inside canonical factor (List.mem_singleton_self _)
    cases canonical with
    | power form inner_base inner_exponent =>
      rw [← exponent.eq_scale inner_exponent] at raised
      exact inner.everyFactor laws inner_base
        (exponent.canonical (canonical_pair inner_exponent integer)) raised
  | _, _, _, .distributed _ _ _ powers whole, canonical, _, factor => by
    obtain ⟨_, _, kept⟩ := canonical_product_iff.mp canonical
    have raised := powers.canonical kept.bases_canonical kept.exponents_canonical
    have every := powers.everyFactor laws kept.bases_canonical kept.exponents_canonical
      fun c f member => laws.inside canonical factor member
    exact whole.everyFactor laws (List.forall_mem_cons.mpr ⟨canonical_number _, raised⟩) every
  | _, _, _, .kept _, _, _, factor => List.forall_mem_singleton.mpr factor

theorem PowersRun.everyFactor (laws : FactorLaws S) : ∀ {factors n rs}, PowersRun factors n rs →
    (∀ b e, (b, e) ∈ factors → b.Canonical) → (∀ b e, (b, e) ∈ factors → e.Canonical) →
    (∀ b e, (b, e) ∈ factors → S (b, e.scale n)) → ∀ factor ∈ rs.flatMap factorPart, S factor
  | _, _, _, .nil, _, _, _ => List.forall_mem_nil _
  | _, _, _, .cons exponent raises tail, bases, exponents, every => by
    have base := bases _ _ (List.mem_cons_self ..)
    have inner := exponents _ _ (List.mem_cons_self ..)
    have total := exponent.canonical (canonical_pair inner (canonical_number _))
    have first := every _ _ (List.mem_cons_self ..)
    have later := tail.everyFactor laws
      (fun b e member => bases b e (List.mem_cons_of_mem _ member))
      (fun b e member => exponents b e (List.mem_cons_of_mem _ member))
      fun b e member => every b e (List.mem_cons_of_mem _ member)
    rw [← exponent.eq_scale inner] at first
    rw [List.flatMap_cons]
    exact List.forall_mem_append.mpr ⟨raises.everyFactor laws base total first, later⟩

end

/-- An integer power meets a requirement if the factors do that the base is raised through, whether
or not the base does itself. -/
theorem PowerRun.everyFactor_inside (laws : FactorLaws S) {b r : Expr} {n : Int}
    (run : PowerRun b (number n) r) (canonical : b.Canonical)
    (every : ∀ c f, (c, f) ∈ b.factorPart → S (c, f.scale n)) :
    ∀ factor ∈ r.factorPart, S factor := by
  generalize exponent : number (n : Rat) = x at run
  cases run with
  | zeroBase _ => exact List.forall_mem_nil _
  | zeroExponent _ => exact List.forall_mem_nil _
  | oneExponent _ =>
    rintro ⟨c, f⟩ member
    have raised := every c f member
    rwa [number.inj exponent, scale_one] at raised
  | oneBase _ _ => exact List.forall_mem_nil _
  | exact _ _ _ _ _ => exact List.forall_mem_nil _
  | nested zero one total inner =>
    obtain rfl : n = _ := by exact_mod_cast number.inj exponent
    cases canonical with
    | power form inner_base inner_exponent =>
      have raised := every _ _ (List.mem_singleton_self _)
      rw [← total.eq_scale inner_exponent] at raised
      exact inner.everyFactor laws inner_base
        (total.canonical (canonical_pair inner_exponent (canonical_number _))) raised
  | distributed zero one number_power powers whole =>
    obtain rfl : n = _ := by exact_mod_cast number.inj exponent
    obtain ⟨_, _, kept⟩ := canonical_product_iff.mp canonical
    have raised := powers.canonical kept.bases_canonical kept.exponents_canonical
    exact whole.everyFactor laws (List.forall_mem_cons.mpr ⟨canonical_number _, raised⟩)
      (powers.everyFactor laws kept.bases_canonical kept.exponents_canonical every)
  | kept form =>
    subst exponent
    have free : ¬ b.raisesInside = true := fun folds => by
      have fractional := form.fractional_over_folding folds
      rw [integer?_number] at fractional
      cases fractional
    have part : b.factorPart = [(b, number 1)] := by
      cases b <;> first | rfl | exact absurd rfl free
    have raised := every b (number 1) (part ▸ List.mem_singleton_self _)
    rw [scale_number, mul_one] at raised
    exact List.forall_mem_singleton.mpr raised

end Runs

end SymbolicAlgebra
