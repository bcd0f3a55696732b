import SymbolicAlgebra.Proofs.VisitOrder

namespace SymbolicAlgebra

open SymbolicAlgebra.Expr

/-- The causes for which a power is refused. -/
inductive Error.OfPower : Error → Prop where
  | zeroBase : OfPower .zeroToNonPositivePower
  | tooLarge (n) : OfPower (.exponentTooLarge n)

/-- A result, or a refusal for a cause that a power can have. -/
inductive PowerOutcome {α : Type} : Except Error α → Prop where
  | ok (a) : PowerOutcome (.ok a)
  | refused {c} (cause : Error.OfPower c) : PowerOutcome (.error c)

namespace PowerOutcome

variable {α β : Type}

theorem cause {c : Error} (outcome : PowerOutcome (.error c : Except Error α)) : c.OfPower := by
  cases outcome
  assumption

theorem map (f : α → β) {x : Except Error α} (outcome : PowerOutcome x) : PowerOutcome (f <$> x) := by
  cases outcome with
  | ok a => exact .ok (f a)
  | refused cause => exact .refused cause

theorem zeroPower (q : Rat) : PowerOutcome (zeroPower q) := by
  unfold SymbolicAlgebra.zeroPower
  split
  · exact .ok 0
  · exact .refused .zeroBase

theorem exactPower (q : Rat) (n : Int) : PowerOutcome (exactPower q n) := by
  rw [exactPower_eq]
  split
  · exact zeroPower n
  split
  · exact .ok 1
  split
  · exact .ok _
  split
  · exact .refused (.tooLarge n)
  · exact .ok _

end PowerOutcome

section Refusals

variable {order : VisitOrder}

mutual

/-- A product is refused for no other cause than a power. -/
theorem ProductVisit.powerOutcome : ∀ {operands outcome}, ProductVisit order operands outcome →
    PowerOutcome outcome
  | _, _, .zero _ => .ok _
  | _, _, .refused _ _ settles => .refused settles.powerOutcome.cause
  | _, _, .vanished _ _ _ _ => .ok _
  | _, _, .assembled _ _ _ _ => .ok _
  | _, _, .again _ _ _ _ rest => rest.powerOutcome

theorem SettleVisit.powerOutcome : ∀ {factors outcome}, SettleVisit order factors outcome →
    PowerOutcome outcome
  | _, _, .nil => .ok _
  | _, _, .dropped tail => tail.powerOutcome
  | _, _, .raised _ _ tail => tail.powerOutcome.map _
  | _, _, .refused _ raises => .refused raises.powerOutcome.cause

theorem PowerVisit.powerOutcome : ∀ {b e outcome}, PowerVisit order b e outcome →
    PowerOutcome outcome
  | _, _, _, .zeroBase q => (PowerOutcome.zeroPower q).map _
  | _, _, _, .zeroExponent _ => .ok _
  | _, _, _, .oneExponent _ => .ok _
  | _, _, _, .oneBase _ _ => .ok _
  | _, _, _, @PowerVisit.exact _ q n _ _ _ _ => (PowerOutcome.exactPower q n).map _
  | _, _, _, .exponentRefused _ _ exponent => .refused exponent.powerOutcome.cause
  | _, _, _, .nested _ _ _ inner => inner.powerOutcome
  | _, _, _, @PowerVisit.coefficientRefused _ coefficient _ _ n _ _ number_power => by
    have outcome := PowerOutcome.exactPower coefficient n
    rw [number_power] at outcome
    exact .refused outcome.cause
  | _, _, _, .factorRefused _ _ _ powers => .refused powers.powerOutcome.cause
  | _, _, _, .distributed _ _ _ _ whole => whole.powerOutcome
  | _, _, _, .kept _ => .ok _

theorem PowersVisit.powerOutcome : ∀ {factors n outcome}, PowersVisit order factors n outcome →
    PowerOutcome outcome
  | _, _, _, .nil => .ok _
  | _, _, _, .exponentRefused exponent => .refused exponent.powerOutcome.cause
  | _, _, _, .refused _ raises => .refused raises.powerOutcome.cause
  | _, _, _, .cons _ _ tail => tail.powerOutcome.map _

end

/-- Factors settle if every base can be raised, and are refused for the cause of one of them. -/
theorem SettleVisit.powers : ∀ {factors outcome}, SettleVisit order factors outcome →
    (∀ settled, outcome = .ok settled → ∀ b e, (b, e) ∈ factors → e ≠ number 0 →
      ∃ r, PowerVisit order b e (.ok r)) ∧
    ∀ c, outcome = .error c → ∃ b e, (b, e) ∈ factors ∧ PowerVisit order b e (.error c)
  | _, _, .nil => by
    refine ⟨fun _ _ b e member => ?_, fun c refused => ?_⟩
    · cases member
    · cases refused
  | _, _, .dropped tail => by
    obtain ⟨raised, refused⟩ := tail.powers
    refine ⟨fun settled found b e member nonzero => ?_, fun c found => ?_⟩
    · rcases List.mem_cons.mp member with same | later
      · cases same
        exact absurd rfl nonzero
      · exact raised settled found b e later nonzero
    · obtain ⟨b, e, member, raises⟩ := refused c found
      exact ⟨b, e, List.mem_cons_of_mem _ member, raises⟩
  | _, _, @SettleVisit.raised _ b e r rest outcome _ raises tail => by
    obtain ⟨raised, refused⟩ := tail.powers
    cases outcome with
    | ok settled =>
      refine ⟨fun _ _ b' e' member nonzero => ?_, fun c found => ?_⟩
      · rcases List.mem_cons.mp member with same | later
        · cases same
          exact ⟨r, raises⟩
        · exact raised settled rfl b' e' later nonzero
      · cases found
    | error c =>
      refine ⟨fun _ found => ?_, fun d found => ?_⟩
      · cases found
      · cases found
        obtain ⟨b', e', member, raises'⟩ := refused c rfl
        exact ⟨b', e', List.mem_cons_of_mem _ member, raises'⟩
  | _, _, @SettleVisit.refused _ b e rest cause _ raises => by
    refine ⟨fun _ found => ?_, fun c found => ?_⟩
    · cases found
    · cases found
      exact ⟨b, e, List.mem_cons_self .., raises⟩

/-- Zero is not raised to a negative number. -/
theorem PowerVisit.zero_negative {q : Rat} (negative : q < 0) {outcome : Except Error Expr}
    (power : PowerVisit order (number 0) (number q) outcome) :
    outcome = .error .zeroToNonPositivePower := by
  cases power with
  | zeroBase =>
    rw [zeroPower, if_neg negative.not_gt]
    rfl
  | zeroExponent base => exact absurd rfl base
  | oneExponent base => exact absurd rfl base
  | exact base_zero => exact absurd rfl base_zero
  | kept canonical => cases canonical.symbolic_over_zero rfl

end Refusals

/-- Refused because of the base zero, unless another base comes first whose exponent is too large. -/
inductive RefusedForZero (order : VisitOrder) (operands : List Expr) : Except Error Expr → Prop where
  | zeroBase : RefusedForZero order operands (.error .zeroToNonPositivePower)
  | tooLarge {b e n} (merged : (b, e) ∈ collectFactors operands) (other : b ≠ number 0)
      (raises : PowerVisit order b e (.error (.exponentTooLarge n))) :
      RefusedForZero order operands (.error (.exponentTooLarge n))

theorem collectCoefficient_ne_zero {operands : List Expr}
    (coefficients : ∀ e ∈ operands, e.coefficientPart ≠ 0) : collectCoefficient operands ≠ 0 := by
  rw [collectCoefficient_eq]
  refine List.prod_ne_zero fun zero => ?_
  obtain ⟨e, member, vanishes⟩ := List.mem_map.mp zero
  exact coefficients e member vanishes

/-- No product comes of a pass that meets zero under a negative number. -/
theorem ProductVisit.refusedForZero {order : VisitOrder} {operands : List Expr} {q : Rat}
    {outcome : Except Error Expr} (canonical : ∀ e ∈ operands, e.Canonical)
    (coefficient : collectCoefficient operands ≠ 0) (negative : q < 0)
    (merged : (number 0, number q) ∈ collectFactors operands)
    (visit : ProductVisit order operands outcome) : RefusedForZero order operands outcome := by
  have exponent : number q ≠ number 0 := fun zero => negative.ne (number.inj zero)
  have unsettled {visited settled} (allowed : order.allows (collectFactors operands) visited)
      (settles : SettleVisit order visited (.ok settled)) : False := by
    have member := (order.perm allowed).mem_iff.mpr merged
    obtain ⟨r, raises⟩ := settles.powers.1 settled rfl _ _ member exponent
    cases raises.zero_negative negative
  cases visit with
  | zero vanishes => exact absurd vanishes coefficient
  | vanished _ allowed settles => exact (unsettled allowed settles).elim
  | assembled allowed settles => exact (unsettled allowed settles).elim
  | again allowed settles => exact (unsettled allowed settles).elim
  | refused _ allowed settles =>
    obtain ⟨b, e, member, raises⟩ := settles.powers.2 _ rfl
    have stored := (order.perm allowed).mem_iff.mp member
    cases raises.powerOutcome.cause with
    | zeroBase => exact .zeroBase
    | tooLarge n =>
      refine .tooLarge stored ?_ raises
      rintro rfl
      obtain rfl := (collected_collectFactors canonical).increasing.eq_of_mem stored merged
      cases raises.zero_negative negative

/-- The factors of other bases than zero. -/
def withoutZeroBase (factors : List Factor) : List Factor :=
  factors.filter fun factor => !factor.1.isZero

theorem not_mem_withoutZeroBase (e : Expr) (factors : List Factor) :
    (number 0, e) ∉ withoutZeroBase factors := by
  intro member
  have other := (List.mem_filter.mp member).2
  cases other

theorem exponentsOf_withoutZeroBase {b : Expr} (other : b ≠ number 0) (factors : List Factor) :
    exponentsOf b (withoutZeroBase factors) = exponentsOf b factors := by
  rw [withoutZeroBase, exponentsOf, exponentsOf, List.filter_filter]
  refine congrArg _ (List.filter_congr fun factor _ => ?_)
  by_cases same : factor.1 = b
  · have nonzero : b.isZero = false := by
      rwa [← Bool.not_eq_true, isZero, isNumber_iff]
    simp [same, nonzero]
  · simp [same]

/-- A base zero whose exponents cancel leaves nothing behind. -/
theorem mergedFactors_withoutZeroBase {operands others : List Expr}
    (canonical : ∀ e ∈ operands, e.Canonical) (canonical_others : ∀ e ∈ others, e.Canonical)
    (cancels : sumOf (exponentsOf (number 0) (operands.flatMap factorPart)) = number 0)
    (rest : others.flatMap factorPart = withoutZeroBase (operands.flatMap factorPart)) :
    mergedFactors operands = mergedFactors others := by
  refine mergedFactors_ext canonical canonical_others fun k b => ?_
  rw [rest]
  by_cases zero : b = number 0
  · subst zero
    rw [← coordinate_sumOf_exponentsOf canonical, cancels, coordinate_number_zero,
      exponentCoordinate_eq_zero]
    exact fun e => not_mem_withoutZeroBase e _
  · rw [exponentCoordinate, exponentCoordinate, exponentsOf_withoutZeroBase zero]

/-- What becomes of a base zero whose exponents add up to a number that is not positive. Below zero
the product is refused, in whatever order the factors are visited. At zero the base is dropped: the
product is that of the other factors. -/
theorem productOf_zero_base {operands : List Expr} {q : Rat}
    (canonical : ∀ e ∈ operands, e.Canonical)
    (coefficients : ∀ e ∈ operands, e.coefficientPart ≠ 0)
    (total : sumOf (exponentsOf (number 0) (operands.flatMap factorPart)) = number q) :
    (q < 0 → RefusedForZero storedOrder operands (productOf operands) ∧
      ∀ order outcome, ProductVisit order operands outcome →
        RefusedForZero order operands outcome) ∧
    (q = 0 → ∀ others, (∀ e ∈ others, e.Canonical) →
      collectCoefficient others = collectCoefficient operands →
      others.flatMap factorPart = withoutZeroBase (operands.flatMap factorPart) →
      (productOf operands : Except Error Expr) = productOf others) := by
  refine ⟨fun negative => ?_, fun zero others canonical_others coefficient rest => ?_⟩
  · have coefficient := collectCoefficient_ne_zero coefficients
    have merged : (number 0, number q) ∈ mergedFactors operands :=
      (mem_mergedFactors_iff_total canonical).mpr
        ⟨total.symm, fun zero => negative.ne (number.inj zero)⟩
    have collected := (mem_mergedFactors_iff.mp merged).1
    have refused (order outcome) (visit : ProductVisit order operands outcome) :
        RefusedForZero order operands outcome :=
      visit.refusedForZero canonical coefficient negative collected
    exact ⟨refused _ _ ((productVisit_storedOrder_iff canonical).mpr rfl), refused⟩
  · subst zero
    exact productOf_congr coefficient.symm
      (mergedFactors_withoutZeroBase canonical canonical_others total rest)

theorem canonical_negative_symbol : (product (-1) [(symbol "y", number 1)]).Canonical :=
  @canonical_productOf [number (-1), symbol "y"] _ (by cbv)
    (canonical_pair (canonical_number _) (.symbol "y"))

theorem canonical_power_zero {e : Expr} (canonical : e.Canonical) (symbolic : e.number? = none) :
    (power (number 0) e).Canonical :=
  .power (canonicalPower_of_symbolic symbolic (by simp)) (canonical_number 0) canonical

/-- Over zero, the exponents `y` and `-1 - y` are refused, and `y` and `-y` cancel. -/
theorem productOf_zero_base_symbols :
    RefusedForZero storedOrder
      [power (number 0) (symbol "y"), power (number 0) (sum (-1) [(symbol "y", -1)])]
      (productOf [power (number 0) (symbol "y"), power (number 0) (sum (-1) [(symbol "y", -1)])]) ∧
    (productOf [power (number 0) (symbol "y"),
        power (number 0) (product (-1) [(symbol "y", number 1)])] : Except Error Expr) =
      productOf [] := by
  have difference : (sum (-1) [(symbol "y", -1)]).Canonical := by
    have found : sumOf [number (-1), product (-1) [(symbol "y", number 1)]] =
        sum (-1) [(symbol "y", -1)] := by cbv
    rw [← found]
    exact canonical_sumOf (canonical_pair (canonical_number _) canonical_negative_symbol)
  have one := canonical_power_zero (.symbol "y") rfl
  have two := canonical_power_zero difference rfl
  have three := canonical_power_zero canonical_negative_symbol rfl
  have refused := @productOf_zero_base _ (-1) (canonical_pair one two) (by simp [coefficientPart])
    (by cbv)
  have dropped := @productOf_zero_base _ 0 (canonical_pair one three) (by simp [coefficientPart])
    (by cbv)
  refine ⟨(refused.1 (by decide)).1, ?_⟩
  exact dropped.2 rfl [] (by simp) (by cbv) (by cbv)

/-- The product of `0**y` and `0**(-y)` is one, although zero to the power zero is refused. -/
theorem productOf_zero_base_unrefused :
    ((power (number 0) (symbol "y")).Canonical ∧
      (power (number 0) (product (-1) [(symbol "y", number 1)])).Canonical) ∧
    (∀ e ∈ [power (number 0) (symbol "y"), power (number 0) (product (-1) [(symbol "y", number 1)])],
      e.coefficientPart ≠ 0) ∧
    sumOf (exponentsOf (number 0) ([power (number 0) (symbol "y"),
      power (number 0) (product (-1) [(symbol "y", number 1)])].flatMap factorPart)) = number 0 ∧
    (productOf [power (number 0) (symbol "y"),
      power (number 0) (product (-1) [(symbol "y", number 1)])] : Except Error Expr) =
        .ok (number 1) ∧
    (powerOf (number 0) (number 0) : Except Error Expr) = .error .zeroToNonPositivePower := by
  refine ⟨⟨canonical_power_zero (.symbol "y") rfl,
    canonical_power_zero canonical_negative_symbol rfl⟩, ?_, ?_, ?_, ?_⟩
  · simp [coefficientPart]
  · cbv
  · cbv
  · cbv

end SymbolicAlgebra
