import SymbolicAlgebra.Proofs.Passes

namespace SymbolicAlgebra

open SymbolicAlgebra.Expr

theorem scale_assembleProduct {p q : Rat} (nonzero : p * q ≠ 0) {factors : List Factor}
    (collected : Collected factors) (each : ∀ b e, (b, e) ∈ factors → CanonicalFactor b e) :
    (assembleProduct q factors).scale p = assembleProduct (p * q) factors := by
  rcases collected.kept_cases each with rfl | ⟨c, terms, rfl⟩ | kept
  · exact scale_number p q
  · rw [assembleProduct_lone_sum, assembleProduct_lone_sum, scale_scale]
    exact collected.bases_canonical _ _ (List.mem_singleton_self _)
  · rw [assembleProduct_eq_withCoefficient kept (right_ne_zero_of_mul nonzero),
      assembleProduct_eq_withCoefficient kept nonzero, kept.scale_withCoefficient]

theorem SettleRun.settledFactors_mergedFactors {operands : List Expr} {settled : Settled}
    (settles : SettleRun (collectFactors operands) settled) :
    (settledFactors (mergedFactors operands) : Except Error Settled) = .ok settled := by
  rw [mergedFactors, settledFactors_nonzero]
  exact settles.settledFactors_eq_ok

/-- With a number multiplied in, the same merged factors settle in the same way. -/
theorem productOf_of_multiple {operands others : List Expr} {settled : Settled} {p : Rat}
    (factors : mergedFactors others = mergedFactors operands)
    (coefficient : collectCoefficient others = p * collectCoefficient operands)
    (settles : SettleRun (collectFactors operands) settled)
    (nonzero : p * (collectCoefficient operands * settled.coefficient) ≠ 0) :
    (productOf others : Except Error Expr) =
      if settled.rewritten = [] then
        .ok (assembleProduct (p * (collectCoefficient operands * settled.coefficient)) settled.kept)
      else productOf (settled.rewritten ++ partsOf settled.kept ++
        [number (p * (collectCoefficient operands * settled.coefficient))]) := by
  have settling := settles.settledFactors_mergedFactors
  rw [← factors] at settling
  have total : collectCoefficient others * settled.coefficient =
      p * (collectCoefficient operands * settled.coefficient) := by
    rw [coefficient, mul_assoc]
  rw [productOf_of_merged (left_ne_zero_of_mul (total ▸ nonzero)) settling total, if_neg nonzero]

/-- A number may as well be multiplied in at the end, whatever the product went through. -/
theorem ProductRun.scale : ∀ {operands r}, ProductRun operands r →
    (∀ e ∈ operands, e.Canonical) → ∀ {p others},
      collectCoefficient others = p * collectCoefficient operands →
      mergedFactors others = mergedFactors operands →
      (productOf others : Except Error Expr) = .ok (r.scale p)
  | _, _, .zero vanishes, _, p, others, coefficient, _ => by
    rw [vanishes, mul_zero] at coefficient
    rw [productOf_of_coefficient_zero coefficient, scale_number, mul_zero]
  | _, _, .vanished settles vanishes, _, p, others, coefficient, factors => by
    have settling := settles.settledFactors_mergedFactors
    rw [scale_number, mul_zero]
    by_cases zero : collectCoefficient others = 0
    · exact productOf_of_coefficient_zero zero
    · rw [← factors] at settling
      refine (productOf_of_merged zero settling ?_).trans (if_pos rfl)
      rw [coefficient, mul_assoc, vanishes, mul_zero]
  | _, _, .assembled settles nonzero done, canonical, p, others, coefficient, factors => by
    have collected := collected_collectFactors canonical
    have form := settles.canonical collected
    by_cases zero : p = 0
    · rw [zero, zero_mul] at coefficient
      rw [productOf_of_coefficient_zero coefficient, zero, scale_zero]
    · have whole := mul_ne_zero zero nonzero
      rw [productOf_of_multiple factors coefficient settles whole, if_pos done,
        scale_assembleProduct whole (collected.sublist form.sublist) form.kept]
  | _, _, .again settles nonzero rewritten rest, canonical, p, others, coefficient, factors => by
    have collected := collected_collectFactors canonical
    have form := settles.canonical collected
    by_cases zero : p = 0
    · rw [zero, zero_mul] at coefficient
      rw [productOf_of_coefficient_zero coefficient, zero, scale_zero]
    · rw [productOf_of_multiple factors coefficient settles (mul_ne_zero zero nonzero),
        if_neg rewritten]
      refine rest.scale (form.again collected) ?_ ?_
      · simp only [collectCoefficient_append, collectCoefficient_number]
        ring
      · refine mergedFactors_ext (form.again collected) (form.again collected) fun k b => ?_
        simp only [List.flatMap_append, List.flatMap_singleton, factorPart]

theorem Merged.nodup {factors : List Factor} (merged : Merged factors) : factors.Nodup :=
  merged.collected.increasing.imp fun less same => by
    subst same
    exact compare_self_ne_lt _ less

/-- Merged factors fall into two parts if one part has all of the exponents of its bases. -/
theorem Merged.perm_append {factors first second : List Factor} (merged : Merged factors)
    (merged_first : Merged first) (merged_second : Merged second)
    (total : ∀ k b, exponentCoordinate k b factors =
      exponentCoordinate k b first + exponentCoordinate k b second)
    (apart : ∀ b e, (b, e) ∈ first → ∀ k, exponentCoordinate k b second = 0) :
    factors.Perm (first ++ second) := by
  have absent {b e f} (member : (b, e) ∈ first) : (b, f) ∉ second := by
    intro other
    obtain ⟨canonical, nonzero, equal⟩ := merged_second.mem_iff.mp other
    refine nonzero (canonical.ext (canonical_number 0) fun k => ?_)
    rw [← equal k, apart b e member k, coordinate_number_zero]
  have distinct := merged_first.nodup.append merged_second.nodup fun _ left => absent left
  refine (List.perm_ext_iff_of_nodup merged.nodup distinct).mpr ?_
  rintro ⟨b, e⟩
  rw [List.mem_append]
  by_cases present : ∃ f, (b, f) ∈ first
  · obtain ⟨f, member⟩ := present
    rw [or_iff_left (absent member), merged.mem_iff, merged_first.mem_iff]
    simp only [total, apart b f member, add_zero]
  · have missing (f) : (b, f) ∉ first := fun member => present ⟨f, member⟩
    rw [or_iff_right (missing e), merged.mem_iff, merged_second.mem_iff]
    simp only [total, exponentCoordinate_eq_zero _ missing, zero_add]

/-- The factors that do not stay as they are settle without the others. -/
theorem SettleRun.exists_reshaped {factors : List Factor} {settled : Settled}
    (run : SettleRun factors settled) :
    ∃ reshaped, reshaped.Sublist factors ∧ factors.Perm (reshaped ++ settled.kept) ∧
      SettleRun reshaped ⟨settled.coefficient, [], settled.rewritten⟩ := by
  induction factors generalizing settled with
  | nil =>
    cases run
    exact ⟨[], List.nil_sublist _, .refl _, .nil⟩
  | cons factor rest ih =>
    cases run with
    | dropped tail =>
      obtain ⟨reshaped, sublist, perm, settles⟩ := ih tail
      exact ⟨_ :: reshaped, sublist.cons_cons _, perm.cons _, .dropped settles⟩
    | @raised b e r _ settled exponent raises tail =>
      obtain ⟨reshaped, sublist, perm, settles⟩ := ih tail
      have again := SettleRun.raised exponent raises settles
      rw [Settled.add_eq_append] at again ⊢
      rcases Settled.add_cases (Eq.refl (Settled.add ⟨1, [], []⟩ (b, e) r)) with ⟨q, rfl, added⟩ |
        ⟨_, _, _, added⟩ | ⟨_, added⟩
      · rw [added] at again ⊢
        exact ⟨(b, e) :: reshaped, sublist.cons_cons _, perm.cons _, again⟩
      · rw [added]
        refine ⟨reshaped, sublist.cons _, (perm.cons _).trans List.perm_middle.symm, ?_⟩
        simpa only [Settled.append, one_mul, List.nil_append] using settles
      · rw [added] at again ⊢
        exact ⟨(b, e) :: reshaped, sublist.cons_cons _, perm.cons _, again⟩

/-- What a product is put together from is found in it again, unless a number was multiplied out. -/
theorem parts_assembleProduct {q : Rat} {factors : List Factor} (nonzero : q ≠ 0)
    (collected : Collected factors) (each : ∀ b e, (b, e) ∈ factors → CanonicalFactor b e)
    (undistributed : ∀ c terms, factors = [(sum c terms, number 1)] → q = 1) :
    (assembleProduct q factors).coefficientPart = q ∧
      (assembleProduct q factors).factorPart = factors := by
  rcases collected.kept_cases each with rfl | ⟨c, terms, rfl⟩ | kept
  · exact ⟨rfl, rfl⟩
  · rw [undistributed c terms rfl]
    exact ⟨rfl, rfl⟩
  · rw [assembleProduct_eq_withCoefficient kept nonzero]
    exact ⟨kept.coefficientPart_withCoefficient nonzero, kept.factorPart_withCoefficient nonzero⟩

/-- What becomes of the merged factors of a group. One that does not stay as it is either has a base
of which the others have nothing in total, or the exponents of that base split. -/
structure SettlesApart (others group : List Expr) (settled : Settled) : Prop where
  settles : (settledFactors (mergedFactors group) : Except Error Settled) = .ok settled
  apart : ∀ b e, (b, e) ∈ mergedFactors group →
    (b, e) ∈ settled.kept ∨ ∀ f, (b, f) ∈ mergedFactors others → Splits b e f

/-- A pass of a group can be taken ahead of the others: nothing folds in it, or there is nothing left
of the others, or the group settles apart from the others and these, with what the group keeps,
can in turn take their pass ahead of what comes up in the group. -/
inductive Ahead : List Expr → List Expr → Prop where
  | unchanged {others group} (each : ∀ b e, (b, e) ∈ mergedFactors group → CanonicalFactor b e) :
      Ahead others group
  | alone {others group settled}
      (settles : (settledFactors (mergedFactors group) : Except Error Settled) = .ok settled)
      (nothing : mergedFactors others = []) : Ahead others group
  | turn {others group settled} (passes : SettlesApart others group settled)
      (waits : Ahead settled.rewritten (partsOf settled.kept ++ others)) : Ahead others group

section Passes

variable {group others : List Expr} {settled : Settled}

theorem Ahead.exists_settledFactors (ahead : Ahead others group) : ∃ settled,
    (settledFactors (mergedFactors group) : Except Error Settled) = .ok settled := by
  cases ahead with
  | unchanged each => exact ⟨_, settledFactors_of_canonical each⟩
  | alone settles _ => exact ⟨_, settles⟩
  | turn passes _ => exact ⟨_, passes.settles⟩

namespace SettlesApart

variable (passes : SettlesApart others group settled) (canonical : ∀ e ∈ group, e.Canonical)
  (canonical_others : ∀ e ∈ others, e.Canonical)

include passes canonical canonical_others

theorem canonical_rest : ∀ e ∈ partsOf settled.kept ++ others, e.Canonical := by
  have form := settled_form canonical passes.settles
  have kept := (merged_mergedFactors canonical).collected.sublist form.sublist
  exact List.forall_mem_append.mpr ⟨canonical_partsOf form.kept kept.bases_canonical
    kept.exponents_canonical, canonical_others⟩

theorem exponentCoordinate_rest (k : Option Expr) (b : Expr) :
    exponentCoordinate k b (mergedFactors (partsOf settled.kept ++ others)) =
      exponentCoordinate k b settled.kept + exponentCoordinate k b (mergedFactors others) := by
  rw [exponentCoordinate_mergedFactors (passes.canonical_rest canonical canonical_others),
    exponentCoordinate_mergedFactors canonical_others, List.flatMap_append,
    exponentCoordinate_append,
    flatMap_factorPart_partsOf (settled_form canonical passes.settles).kept]

/-- All merged factors are those that the group reshapes and those that are left, with the others. -/
theorem exists_reshaped : ∃ reshaped, Merged reshaped ∧
    SettleRun reshaped ⟨settled.coefficient, [], settled.rewritten⟩ ∧
    (∀ k b, exponentCoordinate k b (mergedFactors (group ++ others)) =
      exponentCoordinate k b reshaped +
        exponentCoordinate k b (mergedFactors (partsOf settled.kept ++ others))) ∧
    ∀ b e f, (b, e) ∈ reshaped → (b, f) ∈ mergedFactors (partsOf settled.kept ++ others) →
      Splits b e f := by
  have merged := merged_mergedFactors canonical
  have sublist_kept := (settled_form canonical passes.settles).sublist
  obtain ⟨reshaped, sublist, perm, settles⟩ :=
    (settledFactors_eq_ok_iff.mp passes.settles).exists_reshaped
  have canonical_all := List.forall_mem_append.mpr ⟨canonical, canonical_others⟩
  have canonical_rest := passes.canonical_rest canonical canonical_others
  have rest := passes.exponentCoordinate_rest canonical canonical_others
  refine ⟨reshaped, ⟨merged.collected.sublist sublist, fun b e member =>
    merged.nonzero b e (sublist.subset member)⟩, settles, fun k b => ?_, ?_⟩
  · rw [rest, ← add_assoc, ← exponentCoordinate_append, ← exponentCoordinate_perm k b perm,
      exponentCoordinate_mergedFactors canonical, exponentCoordinate_mergedFactors canonical_others,
      exponentCoordinate_mergedFactors canonical_all, List.flatMap_append,
      exponentCoordinate_append]
  · intro b e f member stored
    have inside := sublist.subset member
    have disjoint := List.disjoint_of_nodup_append (perm.nodup_iff.mp merged.nodup)
    have missing (g) : (b, g) ∉ settled.kept := by
      intro kept
      obtain rfl := merged.collected.increasing.eq_of_mem inside (sublist_kept.subset kept)
      exact disjoint member kept
    refine (passes.apart b e inside).resolve_left (missing e) f ?_
    have merged_rest := merged_mergedFactors canonical_rest
    rw [merged_rest.mem_iff] at stored
    simp only [rest, exponentCoordinate_eq_zero _ missing, zero_add] at stored
    exact (merged_mergedFactors canonical_others).mem_iff.mpr stored

/-- With the others the group settles exactly if what it keeps settles with them. -/
theorem exists_settledFactors_iff :
    (∃ whole, (settledFactors (mergedFactors (group ++ others)) : Except Error Settled) =
      .ok whole) ↔
    ∃ remaining, (settledFactors (mergedFactors (partsOf settled.kept ++ others)) :
      Except Error Settled) = .ok remaining := by
  obtain ⟨reshaped, merged, settles, total, splits⟩ :=
    passes.exists_reshaped canonical canonical_others
  have merged_all := merged_mergedFactors (List.forall_mem_append.mpr ⟨canonical, canonical_others⟩)
  have merged_rest := merged_mergedFactors (passes.canonical_rest canonical canonical_others)
  rw [SymbolicAlgebra.exists_settledFactors_iff merged_all.nonzero,
    SymbolicAlgebra.exists_settledFactors_iff merged_rest.nonzero]
  exact merged_all.powers_union merged merged_rest total splits
    ((SymbolicAlgebra.exists_settledFactors_iff merged.nonzero).mp ⟨_, settles.settledFactors_eq_ok⟩)

/-- What comes up in the group comes up beside what is left, with the others. -/
theorem alike_operands {whole remaining : Settled}
    (found : (settledFactors (mergedFactors (group ++ others)) : Except Error Settled) = .ok whole)
    (found_rest : (settledFactors (mergedFactors (partsOf settled.kept ++ others)) :
      Except Error Settled) = .ok remaining) (q : Rat) :
    Alike (whole.operands q)
      (remaining.operands q ++ settled.rewritten ++ [number settled.coefficient]) := by
  obtain ⟨reshaped, merged, settles, total, splits⟩ :=
    passes.exists_reshaped canonical canonical_others
  have canonical_all := List.forall_mem_append.mpr ⟨canonical, canonical_others⟩
  have canonical_rest := passes.canonical_rest canonical canonical_others
  have first := settles.prod_share merged.collected merged.nonzero 1
  rw [Settled.prod_share_operands, share_number_one, one_mul, one_mul] at first
  rw [Alike, prod_share_settledOperands canonical_all found, List.map_append, List.map_append,
    List.prod_append, List.prod_append, prod_share_settledOperands canonical_rest found_rest,
    (merged_mergedFactors canonical_all).prod_share_union merged
      (merged_mergedFactors canonical_rest) total splits, ← first]
  simp only [partsOf, List.map_nil, List.prod_nil, mul_one, List.map_singleton,
    List.prod_singleton]
  ac_rfl

end SettlesApart

/-- With a number before them, operands settle the same. -/
theorem productOf_number_settledOperands {operands : List Expr} {settled : Settled}
    (canonical : ∀ e ∈ operands, e.Canonical)
    (settles : (settledFactors (mergedFactors operands) : Except Error Settled) = .ok settled)
    (p : Rat) : (productOf (number p :: operands) : Except Error Expr) =
      productOf (settled.operands (p * collectCoefficient operands)) :=
  productOf_settledOperands (List.forall_mem_cons.mpr ⟨canonical_number p, canonical⟩) settles

/-- Factors that stay as they are are operands of the next pass. -/
theorem alike_settledOperands {operands : List Expr} (canonical : ∀ e ∈ operands, e.Canonical)
    (each : ∀ b e, (b, e) ∈ mergedFactors operands → CanonicalFactor b e) :
    Alike (Settled.operands ⟨1, mergedFactors operands, []⟩ (collectCoefficient operands))
      operands := by
  refine alike_iff.mpr ⟨?_, fun k b => ?_⟩
  · rw [Settled.operands, List.nil_append, collectCoefficient_append, collectCoefficient_partsOf each,
      collectCoefficient_number, mul_one, one_mul]
  · rw [Settled.operands, List.nil_append, List.flatMap_append, flatMap_factorPart_partsOf each,
      exponentCoordinate_append, exponentCoordinate_mergedFactors canonical,
      exponentCoordinate_number, add_zero]

/-- Operands whose exponents all cancel make a number. -/
theorem alike_number {operands : List Expr} (canonical : ∀ e ∈ operands, e.Canonical)
    (nothing : mergedFactors operands = []) :
    Alike operands [number (collectCoefficient operands)] :=
  alike_of_mergedFactors canonical
    (fun _ member => List.mem_singleton.mp member ▸ canonical_number _)
    (collectCoefficient_number _).symm (nothing.trans rfl)

section Ahead

variable (canonical : ∀ e ∈ group, e.Canonical) (canonical_others : ∀ e ∈ others, e.Canonical) (p : Rat)

include canonical canonical_others

theorem canonical_number_append (q : Rat) : ∀ e ∈ number q :: (group ++ others), e.Canonical :=
  List.forall_mem_cons.mpr
    ⟨canonical_number q, List.forall_mem_append.mpr ⟨canonical, canonical_others⟩⟩

theorem productOf_append_of_unchanged
    (each : ∀ b e, (b, e) ∈ mergedFactors group → CanonicalFactor b e) :
    (productOf (number p :: (group ++ others)) : Except Error Expr) =
      productOf (number p :: (Settled.operands ⟨1, mergedFactors group, []⟩
        (collectCoefficient group) ++ others)) := by
  have canonical_next := canonical_settledOperands canonical (settledFactors_of_canonical each)
  have alike := alike_settledOperands canonical each
  refine Alike.productOf_eq ?_ (canonical_number_append canonical canonical_others p)
    (canonical_number_append (canonical_next _) canonical_others p)
  simp only [Alike, List.map_cons, List.map_append, List.prod_cons, List.prod_append] at alike ⊢
  rw [alike]

theorem productOf_append_of_nothing (nothing : mergedFactors others = [])
    (settles : (settledFactors (mergedFactors group) : Except Error Settled) = .ok settled) :
    (productOf (number p :: (group ++ others)) : Except Error Expr) =
      productOf (number p :: (settled.operands (collectCoefficient group) ++ others)) := by
  have canonical_next := canonical_settledOperands canonical settles
  have numbers : (others.map share).prod = (number (collectCoefficient others)).share := by
    simpa [Alike] using alike_number canonical_others nothing
  calc (productOf (number p :: (group ++ others)) : Except Error Expr)
    _ = productOf (number (p * collectCoefficient others) :: group) := by
      refine Alike.productOf_eq ?_ (canonical_number_append canonical canonical_others p)
        (List.forall_mem_cons.mpr ⟨canonical_number _, canonical⟩)
      simp only [Alike, List.map_cons, List.map_append, List.prod_cons, List.prod_append, numbers,
        share_number_mul]
      ac_rfl
    _ = productOf (settled.operands (p * collectCoefficient others * collectCoefficient group)) :=
      productOf_number_settledOperands canonical settles _
    _ = productOf (number p :: (settled.operands (collectCoefficient group) ++ others)) := by
      refine Alike.productOf_eq ?_ (canonical_next _)
        (canonical_number_append (canonical_next _) canonical_others p)
      simp only [Alike, List.map_cons, List.map_append, List.prod_cons, List.prod_append, numbers,
        share_number_mul, Settled.prod_share_operands]
      ac_rfl

/-- If what is left can take its pass ahead of what comes up in a pass, then the pass was taken ahead
of the others. -/
theorem SettlesApart.productOf_append {remaining : Settled}
    (passes : SettlesApart others group settled)
    (settles_rest : (settledFactors (mergedFactors (partsOf settled.kept ++ others)) :
      Except Error Settled) = .ok remaining)
    (waits : ∀ q, (productOf (number q :: (partsOf settled.kept ++ others ++ settled.rewritten)) :
        Except Error Expr) =
      productOf (number q :: (remaining.operands
        (collectCoefficient (partsOf settled.kept ++ others)) ++ settled.rewritten))) :
    (productOf (number p :: (group ++ others)) : Except Error Expr) =
      productOf (number p :: (settled.operands (collectCoefficient group) ++ others)) := by
  have form := settled_form canonical passes.settles
  have canonical_rest := passes.canonical_rest canonical canonical_others
  have canonical_all := List.forall_mem_append.mpr ⟨canonical, canonical_others⟩
  obtain ⟨whole, settles⟩ :=
    (passes.exists_settledFactors_iff canonical canonical_others).mpr ⟨remaining, settles_rest⟩
  have beside := passes.alike_operands canonical canonical_others settles settles_rest
    (p * collectCoefficient (group ++ others))
  have coefficient_rest : collectCoefficient (partsOf settled.kept ++ others) =
      collectCoefficient others := by
    rw [collectCoefficient_append, collectCoefficient_partsOf form.kept, one_mul]
  rw [coefficient_rest] at waits
  calc (productOf (number p :: (group ++ others)) : Except Error Expr)
    _ = productOf (whole.operands (p * collectCoefficient (group ++ others))) :=
      productOf_number_settledOperands canonical_all settles p
    _ = productOf (number (p * (collectCoefficient group * settled.coefficient)) ::
        (remaining.operands (collectCoefficient others) ++ settled.rewritten)) := by
      refine Alike.productOf_eq (Eq.trans beside ?_)
        (canonical_settledOperands canonical_all settles _)
        (canonical_number_append (canonical_settledOperands canonical_rest settles_rest _)
          form.rewritten _)
      simp only [List.map_cons, List.map_append, List.prod_cons, List.prod_append, List.map_nil,
        List.prod_nil, mul_one, collectCoefficient_append, share_number_mul,
        Settled.prod_share_operands]
      ac_rfl
    _ = productOf (number (p * (collectCoefficient group * settled.coefficient)) ::
        (partsOf settled.kept ++ others ++ settled.rewritten)) := (waits _).symm
    _ = productOf (number p :: (settled.operands (collectCoefficient group) ++ others)) := by
      refine Alike.productOf_eq ?_ (canonical_number_append canonical_rest form.rewritten _)
        (canonical_number_append (canonical_settledOperands canonical passes.settles _)
          canonical_others p)
      simp only [Alike, List.map_cons, List.map_append, List.prod_cons, List.prod_append,
        share_number_mul, Settled.prod_share_operands]
      ac_rfl

end Ahead

/-- A product does not notice that one of its groups took a pass ahead. -/
theorem Ahead.productOf_append (ahead : Ahead others group) (canonical : ∀ e ∈ group, e.Canonical)
    (canonical_others : ∀ e ∈ others, e.Canonical)
    (settles : (settledFactors (mergedFactors group) : Except Error Settled) = .ok settled)
    (p : Rat) : (productOf (number p :: (group ++ others)) : Except Error Expr) =
      productOf (number p :: (settled.operands (collectCoefficient group) ++ others)) := by
  induction ahead generalizing settled p with
  | unchanged each =>
    obtain rfl := Except.ok.inj (settles.symm.trans (settledFactors_of_canonical each))
    exact productOf_append_of_unchanged canonical canonical_others p each
  | alone _ nothing =>
    exact productOf_append_of_nothing canonical canonical_others p nothing settles
  | turn passes waits ih =>
    obtain rfl := Except.ok.inj (settles.symm.trans passes.settles)
    obtain ⟨remaining, settles_rest⟩ := waits.exists_settledFactors
    exact passes.productOf_append canonical canonical_others p settles_rest
      (ih (passes.canonical_rest canonical canonical_others)
        (settled_form canonical settles).rewritten settles_rest)

end Passes

/-- Among the others, a group of operands can be replaced by its product: a zero is among them, or
there is nothing left of the others, or the group takes one pass after the other ahead of them. In
the last pass no number may be multiplied out over a lone sum. The others may also take a pass
first, ahead of the group and of its product. -/
inductive Replaceable : List Expr → List Expr → Prop where
  | zero {others group} (vanishes : collectCoefficient (group ++ others) = 0) :
      Replaceable others group
  | alone {others group} (nothing : mergedFactors others = []) : Replaceable others group
  | kept {others group settled} (passes : SettlesApart others group settled)
      (done : settled.rewritten = [])
      (undistributed : ∀ c terms, settled.kept = [(sum c terms, number 1)] →
        collectCoefficient group * settled.coefficient = 1) :
      Replaceable others group
  | again {others group settled} (ahead : Ahead others group)
      (settles : (settledFactors (mergedFactors group) : Except Error Settled) = .ok settled)
      (rest : Replaceable others (settled.operands (collectCoefficient group))) :
      Replaceable others group
  | wait {others group settled} (ahead : Ahead group others)
      (ahead_product : ∀ r, (productOf group : Except Error Expr) = .ok r → Ahead [r] others)
      (settles : (settledFactors (mergedFactors others) : Except Error Settled) = .ok settled)
      (rest : Replaceable (settled.operands (collectCoefficient others)) group) :
      Replaceable others group

section Replacement

variable {group others : List Expr} {settled : Settled}

/-- If a number among all of the operands is zero, nothing is left of any of them. -/
theorem productOf_cons_of_vanishes {r w : Expr}
    (vanishes : collectCoefficient (group ++ others) = 0)
    (found : (productOf group : Except Error Expr) = .ok r)
    (whole : (productOf (group ++ others) : Except Error Expr) = .ok w) :
    (productOf (r :: others) : Except Error Expr) = .ok w := by
  rw [← whole, productOf_of_coefficient_zero vanishes]
  rw [collectCoefficient_append] at vanishes
  rcases mul_eq_zero.mp vanishes with zero | zero
  · rw [productOf_of_coefficient_zero zero] at found
    cases found
    exact productOf_of_mem_zero (List.mem_cons_self ..)
  · exact productOf_of_coefficient_zero (by rw [collectCoefficient, zero, mul_zero])

theorem productOf_number_one {operands : List Expr} (canonical : ∀ e ∈ operands, e.Canonical) :
    (productOf (number 1 :: operands) : Except Error Expr) = productOf operands := by
  refine Alike.productOf_eq ?_ (List.forall_mem_cons.mpr ⟨canonical_number 1, canonical⟩) canonical
  rw [Alike, List.map_cons, List.prod_cons, share_number_one, one_mul]

/-- Without a number before them. -/
theorem Ahead.productOf_append_eq (ahead : Ahead others group) (canonical : ∀ e ∈ group, e.Canonical)
    (canonical_others : ∀ e ∈ others, e.Canonical)
    (settles : (settledFactors (mergedFactors group) : Except Error Settled) = .ok settled) :
    (productOf (group ++ others) : Except Error Expr) =
      productOf (settled.operands (collectCoefficient group) ++ others) := by
  have taken := ahead.productOf_append canonical canonical_others settles 1
  rwa [productOf_number_one (List.forall_mem_append.mpr ⟨canonical, canonical_others⟩),
    productOf_number_one (List.forall_mem_append.mpr
      ⟨canonical_settledOperands canonical settles _, canonical_others⟩)] at taken

/-- In the last pass of a group its product takes the place of what the pass kept. -/
theorem alike_cons_of_kept (canonical : ∀ e ∈ group, e.Canonical)
    (settles : (settledFactors (mergedFactors group) : Except Error Settled) = .ok settled)
    (done : settled.rewritten = [])
    (undistributed : ∀ c terms, settled.kept = [(sum c terms, number 1)] →
      collectCoefficient group * settled.coefficient = 1)
    (nonzero : collectCoefficient group * settled.coefficient ≠ 0) {r : Expr}
    (found : (productOf group : Except Error Expr) = .ok r) :
    Alike (settled.operands (collectCoefficient group)) [r] := by
  have form := settled_form canonical settles
  have kept := (merged_mergedFactors canonical).collected.sublist form.sublist
  rw [productOf_of_merged (left_ne_zero_of_mul nonzero) settles rfl, if_neg nonzero, if_pos done]
    at found
  cases found
  obtain ⟨number_part, factor_part⟩ := parts_assembleProduct nonzero kept form.kept undistributed
  refine alike_iff.mpr ⟨?_, fun k b => ?_⟩
  · rw [Settled.operands, done, List.nil_append, collectCoefficient_append,
      collectCoefficient_partsOf form.kept, collectCoefficient_number, one_mul, collectCoefficient,
      number_part]
    exact (mul_one _).symm
  · rw [Settled.operands, done, List.nil_append, List.flatMap_append,
      flatMap_factorPart_partsOf form.kept, exponentCoordinate_append, exponentCoordinate_number,
      add_zero, List.flatMap_singleton, factor_part]

/-- A group that can be replaced by its product is. -/
theorem Replaceable.productOf_cons (replaceable : Replaceable others group)
    (canonical : ∀ e ∈ group, e.Canonical) (canonical_others : ∀ e ∈ others, e.Canonical)
    {r w : Expr} (found : (productOf group : Except Error Expr) = .ok r)
    (whole : (productOf (group ++ others) : Except Error Expr) = .ok w) :
    (productOf (r :: others) : Except Error Expr) = .ok w := by
  induction replaceable generalizing w with
  | zero vanishes => exact productOf_cons_of_vanishes vanishes found whole
  | @alone others group nothing =>
    have canonical_r := canonical_productOf found canonical
    have numbers := alike_number canonical_others nothing
    have number_last : ∀ e ∈ [number (collectCoefficient others)], e.Canonical := fun e member =>
      List.mem_singleton.mp member ▸ canonical_number _
    have scaled := (productOf_eq_ok_iff.mp found).scale canonical
      ((collectCoefficient_append group others).trans (mul_comm _ _))
      (((numbers.append_left group).mergedFactors_eq (List.forall_mem_append.mpr
        ⟨canonical, canonical_others⟩) (List.forall_mem_append.mpr ⟨canonical, number_last⟩)).trans
        (by simp [mergedFactors, collectFactors, factorPart]))
    rw [← whole, scaled, ← productOf_number_right _ canonical_r]
    exact (numbers.append_left [r]).productOf_eq
      (List.forall_mem_cons.mpr ⟨canonical_r, canonical_others⟩)
      (canonical_pair canonical_r (canonical_number _))
  | @kept others group settled passes done undistributed =>
    by_cases coefficient : collectCoefficient (group ++ others) = 0
    · exact productOf_cons_of_vanishes coefficient found whole
    obtain ⟨_, settles_whole⟩ := exists_settledFactors_of_productOf coefficient whole
    obtain ⟨remaining, settles_rest⟩ :=
      (passes.exists_settledFactors_iff canonical canonical_others).mp ⟨_, settles_whole⟩
    have ahead : Ahead others group := .turn passes (done ▸ .alone settles_rest rfl)
    rw [ahead.productOf_append_eq canonical canonical_others passes.settles] at whole
    by_cases vanishes : collectCoefficient group * settled.coefficient = 0
    · rw [productOf_settledOperands canonical passes.settles] at found
      refine productOf_cons_of_vanishes ?_ found whole
      rw [collectCoefficient_append, collectCoefficient_settledOperands canonical passes.settles,
        vanishes, mul_zero, zero_mul]
    · rw [← whole]
      have alike := alike_cons_of_kept canonical passes.settles done undistributed vanishes found
      exact (alike.append_right others).symm.productOf_eq (List.forall_mem_cons.mpr
        ⟨canonical_productOf found canonical, canonical_others⟩) (List.forall_mem_append.mpr
          ⟨canonical_settledOperands canonical passes.settles _, canonical_others⟩)
  | @again others group settled ahead settles rest ih =>
    rw [ahead.productOf_append_eq canonical canonical_others settles] at whole
    rw [productOf_settledOperands canonical settles] at found
    exact ih (canonical_settledOperands canonical settles _) canonical_others found whole
  | @wait others group settled ahead ahead_product settles rest ih =>
    have canonical_r := canonical_productOf found canonical
    have canonical_next := canonical_settledOperands canonical_others settles
    have swap {first second : List Expr} (left : ∀ e ∈ first, e.Canonical)
        (right : ∀ e ∈ second, e.Canonical) : (productOf (first ++ second) : Except Error Expr) =
          productOf (second ++ first) :=
      productOf_perm (List.forall_mem_append.mpr ⟨left, right⟩) List.perm_append_comm
    have single : ∀ e ∈ [r], e.Canonical := fun e member => List.mem_singleton.mp member ▸ canonical_r
    rw [swap canonical canonical_others, ahead.productOf_append_eq canonical_others canonical settles,
      swap (canonical_next _) canonical] at whole
    have replaced := ih canonical (canonical_next _) found whole
    have turned := (ahead_product r found).productOf_append_eq canonical_others single settles
    rw [swap canonical_others single, swap (canonical_next _) single] at turned
    exact turned.trans replaced

end Replacement

/-- One group after the other, in some order, can be replaced by its product, each among the first
operands, the products of the groups before it and the operands of those after it. -/
inductive Regroupable : List Expr → List (List Expr) → Prop where
  | nil {first} : Regroupable first []
  | cons {first groups group rest} (order : groups.Perm (group :: rest))
      (replaceable : Replaceable (first ++ rest.flatten) group)
      (later : ∀ r, (productOf group : Except Error Expr) = .ok r → Regroupable (first ++ [r]) rest) :
      Regroupable first groups

theorem canonical_products {groups : List (List Expr)} {products : List Expr}
    (canonical : ∀ e ∈ groups.flatten, e.Canonical)
    (found : List.Forall₂ (fun group r => (productOf group : Except Error Expr) = .ok r) groups
      products) : ∀ r ∈ products, r.Canonical := by
  intro r member
  obtain ⟨group, stored, product⟩ := exists_of_mem_mapM (mapM_eq_ok_iff.mpr found) member
  exact canonical_productOf product fun e inside =>
    canonical e (List.mem_flatten.mpr ⟨group, stored, inside⟩)

/-- Groups that can be replaced are: the first operands make the same product with the products of
the groups as with all of their operands. -/
theorem Regroupable.productOf_append {first : List Expr} {groups : List (List Expr)}
    (regroupable : Regroupable first groups) {products : List Expr} {w : Expr}
    (canonical : ∀ e ∈ first ++ groups.flatten, e.Canonical)
    (found : List.Forall₂ (fun group r => (productOf group : Except Error Expr) = .ok r) groups
      products)
    (whole : (productOf (first ++ groups.flatten) : Except Error Expr) = .ok w) :
    (productOf (first ++ products) : Except Error Expr) = .ok w := by
  induction regroupable generalizing products with
  | nil =>
    cases found
    exact whole
  | @cons first groups group rest order replaceable later ih =>
    have canonical_whole : ∀ e ∈ first ++ products, e.Canonical := List.forall_mem_append.mpr
      ⟨(List.forall_mem_append.mp canonical).1,
        canonical_products (List.forall_mem_append.mp canonical).2 found⟩
    obtain ⟨_, found, same⟩ := List.perm_comp_forall₂ order.symm found
    cases found with
    | @cons _ r _ products' here others =>
      have flat : (first ++ groups.flatten).Perm (group ++ (first ++ rest.flatten)) :=
        (order.flatten.append_left first).trans (List.perm_append_comm_assoc ..)
      have canonical' : ∀ e ∈ group ++ (first ++ rest.flatten), e.Canonical := fun e member =>
        canonical e (flat.mem_iff.mpr member)
      obtain ⟨canonical_group, canonical_rest⟩ := List.forall_mem_append.mp canonical'
      have canonical_r := canonical_productOf here canonical_group
      rw [productOf_perm canonical flat] at whole
      have replaced := replaceable.productOf_cons canonical_group canonical_rest here whole
      have back : (r :: (first ++ rest.flatten)).Perm (first ++ [r] ++ rest.flatten) := by
        rw [List.append_assoc]
        exact List.perm_middle.symm
      have canonical_next : ∀ e ∈ first ++ [r] ++ rest.flatten, e.Canonical := fun e member =>
        List.forall_mem_cons.mpr ⟨canonical_r, canonical_rest⟩ e (back.mem_iff.mpr member)
      rw [← productOf_perm canonical_next back.symm] at replaced
      have regrouped := ih r here canonical_next others replaced
      rw [List.append_assoc, List.singleton_append] at regrouped
      rw [← regrouped]
      exact productOf_perm canonical_whole (same.append_left first).symm

/-- A group whose merged factors all stay as they are can be replaced, unless it is a number times a
lone sum. -/
theorem replaceable_of_unchanged (others : List Expr) {group : List Expr}
    (unchanged : ∀ b e, (b, e) ∈ mergedFactors group → CanonicalFactor b e)
    (undistributed : ∀ c terms, mergedFactors group = [(sum c terms, number 1)] →
      collectCoefficient group = 1) : Replaceable others group := by
  have passes : SettlesApart others group ⟨1, mergedFactors group, []⟩ :=
    ⟨settledFactors_of_canonical unchanged, fun b e member => .inl member⟩
  refine .kept passes rfl fun c terms lone => ?_
  rw [mul_one]
  exact undistributed c terms lone

/-- Groups that can be replaced beside any others can be replaced in their own order. -/
theorem regroupable_of_forall {groups : List (List Expr)}
    (replaceable : ∀ group ∈ groups, ∀ others, Replaceable others group) (first : List Expr) :
    Regroupable first groups := by
  induction groups generalizing first with
  | nil => exact .nil
  | cons group rest ih =>
    obtain ⟨here, later⟩ := List.forall_mem_cons.mp replaceable
    exact .cons (.refl _) (here _) fun r _ => ih later (first ++ [r])

def productOfTwo : Expr :=
  product 1 [(symbol "x", number 1), (symbol "y", number 1)]

def rootOfProduct : Expr :=
  power productOfTwo (number (1 / 2))

def nestedProduct : Expr :=
  product 1 [(symbol "z", number 1), (productOfTwo, symbol "n")]

def rootOfNested : Expr :=
  power nestedProduct (number (1 / 2))

theorem canonical_productOfTwo : productOfTwo.Canonical :=
  @canonical_productOf [symbol "x", symbol "y"] _ (by cbv)
    (canonical_pair (.symbol "x") (.symbol "y"))

theorem canonical_rootOfProduct : rootOfProduct.Canonical :=
  @canonical_powerOf _ (number (1 / 2)) _ (by cbv) canonical_productOfTwo (canonical_number _)

theorem canonical_rootOfNested : rootOfNested.Canonical := by
  have inner : (power productOfTwo (symbol "n")).Canonical :=
    @canonical_powerOf _ (symbol "n") _ (by cbv) canonical_productOfTwo (.symbol "n")
  have nested : nestedProduct.Canonical :=
    @canonical_productOf [symbol "z", power productOfTwo (symbol "n")] _ (by cbv)
      (canonical_pair (.symbol "z") inner)
  exact @canonical_powerOf _ (number (1 / 2)) _ (by cbv) nested (canonical_number _)

end SymbolicAlgebra
