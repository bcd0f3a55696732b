import SymbolicAlgebra.Proofs.Merging
import SymbolicAlgebra.Proofs.Settling

namespace SymbolicAlgebra

open SymbolicAlgebra.Expr

/-- The orders in which the collected factors of a product may be visited. There may be many for the
same factors, so that the order need not be a function of them, but there is always one. -/
structure VisitOrder where
  allows : List Factor → List Factor → Prop
  exists_visited : ∀ factors, ∃ visited, allows factors visited
  perm : ∀ {factors visited}, allows factors visited → visited.Perm factors

/-- The only order allowed is the one in which the factors are stored. -/
def VisitOrder.Stored (order : VisitOrder) : Prop :=
  ∀ {factors visited}, order.allows factors visited → visited = factors

def sortFactors (factors : List Factor) : List Factor :=
  factors.mergeSort fun x y => (x.1.compare y.1).isLE

mutual

/-- The outcomes that a product can have when each pass, also of the products inside of it, visits
its factors in an allowed order. The first refusal ends it, and what is kept is sorted at the end. -/
inductive ProductVisit (order : VisitOrder) : List Expr → Except Error Expr → Prop where
  | zero {operands} (vanishes : collectCoefficient operands = 0) :
      ProductVisit order operands (.ok (number 0))
  | refused {operands visited cause} (coefficient : collectCoefficient operands ≠ 0)
      (allowed : order.allows (collectFactors operands) visited)
      (settles : SettleVisit order visited (.error cause)) :
      ProductVisit order operands (.error cause)
  | vanished {operands visited settled} (coefficient : collectCoefficient operands ≠ 0)
      (allowed : order.allows (collectFactors operands) visited)
      (settles : SettleVisit order visited (.ok settled))
      (vanishes : collectCoefficient operands * settled.coefficient = 0) :
      ProductVisit order operands (.ok (number 0))
  | assembled {operands visited settled}
      (allowed : order.allows (collectFactors operands) visited)
      (settles : SettleVisit order visited (.ok settled))
      (nonzero : collectCoefficient operands * settled.coefficient ≠ 0)
      (done : settled.rewritten = []) :
      ProductVisit order operands (.ok
        (assembleProduct (collectCoefficient operands * settled.coefficient)
          (sortFactors settled.kept)))
  | again {operands visited settled outcome}
      (allowed : order.allows (collectFactors operands) visited)
      (settles : SettleVisit order visited (.ok settled))
      (nonzero : collectCoefficient operands * settled.coefficient ≠ 0)
      (rewritten : settled.rewritten ≠ [])
      (rest : ProductVisit order (settled.rewritten ++ partsOf settled.kept ++
        [number (collectCoefficient operands * settled.coefficient)]) outcome) :
      ProductVisit order operands outcome

/-- The outcomes of raising the visited bases one after the other. -/
inductive SettleVisit (order : VisitOrder) : List Factor → Except Error Settled → Prop where
  | nil : SettleVisit order [] (.ok ⟨1, [], []⟩)
  | dropped {b rest outcome} (tail : SettleVisit order rest outcome) :
      SettleVisit order ((b, number 0) :: rest) outcome
  | raised {b e r rest outcome} (exponent : e ≠ number 0) (power : PowerVisit order b e (.ok r))
      (tail : SettleVisit order rest outcome) :
      SettleVisit order ((b, e) :: rest) ((fun settled => settled.add (b, e) r) <$> outcome)
  | refused {b e rest cause} (exponent : e ≠ number 0)
      (power : PowerVisit order b e (.error cause)) :
      SettleVisit order ((b, e) :: rest) (.error cause)

/-- The outcomes of raising a base to an exponent. -/
inductive PowerVisit (order : VisitOrder) : Expr → Expr → Except Error Expr → Prop where
  | zeroBase (q) : PowerVisit order (number 0) (number q) (number <$> zeroPower q)
  | zeroExponent {b} (base : b ≠ number 0) : PowerVisit order b (number 0) (.ok (number 1))
  | oneExponent {b} (base : b ≠ number 0) : PowerVisit order b (number 1) (.ok b)
  | oneBase {e} (zero : e ≠ number 0) (one : e ≠ number 1) :
      PowerVisit order (number 1) e (.ok (number 1))
  | exact {q} {n : Int} (base_zero : q ≠ 0) (base_one : q ≠ 1) (zero : n ≠ 0) (one : n ≠ 1) :
      PowerVisit order (number q) (number n) (number <$> exactPower q n)
  | exponentRefused {c f cause} {n : Int} (zero : n ≠ 0) (one : n ≠ 1)
      (exponent : ProductVisit order [f, number n] (.error cause)) :
      PowerVisit order (power c f) (number n) (.error cause)
  | nested {c f k outcome} {n : Int} (zero : n ≠ 0) (one : n ≠ 1)
      (exponent : ProductVisit order [f, number n] (.ok k)) (inner : PowerVisit order c k outcome) :
      PowerVisit order (power c f) (number n) outcome
  | coefficientRefused {coefficient factors cause} {n : Int} (zero : n ≠ 0) (one : n ≠ 1)
      (number_power : exactPower coefficient n = .error cause) :
      PowerVisit order (product coefficient factors) (number n) (.error cause)
  | factorRefused {coefficient factors p cause} {n : Int} (zero : n ≠ 0) (one : n ≠ 1)
      (number_power : exactPower coefficient n = .ok p)
      (powers : PowersVisit order factors n (.error cause)) :
      PowerVisit order (product coefficient factors) (number n) (.error cause)
  | distributed {coefficient factors p rs outcome} {n : Int} (zero : n ≠ 0) (one : n ≠ 1)
      (number_power : exactPower coefficient n = .ok p)
      (powers : PowersVisit order factors n (.ok rs))
      (whole : ProductVisit order (number p :: rs) outcome) :
      PowerVisit order (product coefficient factors) (number n) outcome
  | kept {b e} (canonical : CanonicalPower b e) : PowerVisit order b e (.ok (power b e))

/-- The outcomes of raising the factors of a product to one integer power. -/
inductive PowersVisit (order : VisitOrder) :
    List Factor → Int → Except Error (List Expr) → Prop where
  | nil {n} : PowersVisit order [] n (.ok [])
  | exponentRefused {b e rest cause} {n : Int}
      (exponent : ProductVisit order [e, number n] (.error cause)) :
      PowersVisit order ((b, e) :: rest) n (.error cause)
  | refused {b e k rest cause} {n : Int} (exponent : ProductVisit order [e, number n] (.ok k))
      (power : PowerVisit order b k (.error cause)) :
      PowersVisit order ((b, e) :: rest) n (.error cause)
  | cons {b e k r rest outcome} {n : Int} (exponent : ProductVisit order [e, number n] (.ok k))
      (power : PowerVisit order b k (.ok r)) (tail : PowersVisit order rest n outcome) :
      PowersVisit order ((b, e) :: rest) n ((fun rs => r :: rs) <$> outcome)

end

/-- Both give the same result, or both are refused, and for the same cause if they are `alike`. -/
inductive Agree (alike : Prop) {α : Type} : Except Error α → Except Error α → Prop where
  | ok (a) : Agree alike (.ok a) (.ok a)
  | refused {c d} (same : alike → c = d) : Agree alike (.error c) (.error d)

namespace Agree

variable {alike : Prop} {α β : Type}

theorem refl (x : Except Error α) : Agree alike x x := by
  cases x with
  | error c => exact .refused fun _ => rfl
  | ok a => exact .ok a

theorem eq_ok {x : Except Error α} {a : α} (agree : Agree alike x (.ok a)) : x = .ok a := by
  cases agree
  rfl

theorem eq_error {x : Except Error α} {c : Error} (agree : Agree alike x (.error c)) :
    ∃ d, x = .error d ∧ (alike → d = c) := by
  cases agree with
  | refused same => exact ⟨_, rfl, same⟩

theorem map (f : α → β) {x y : Except Error α} (agree : Agree alike x y) :
    Agree alike (f <$> x) (f <$> y) := by
  cases agree with
  | ok a => exact .ok (f a)
  | refused same => exact .refused same

/-- A refusal of the first step is one of the whole. -/
theorem bind_error {x : Except Error α} {c : Error} (agree : Agree alike x (.error c))
    (f : α → Except Error β) : Agree alike (x >>= f) (.error c) := by
  obtain ⟨d, rfl, same⟩ := agree.eq_error
  exact .refused same

end Agree

theorem sortFactors_eq {factors others : List Factor} (increasing : Increasing factors)
    (perm : others.Perm factors) : sortFactors others = factors :=
  increasing.mergeSort_eq perm

theorem productOf_of_refused {operands : List Expr} {c : Error}
    (coefficient : collectCoefficient operands ≠ 0)
    (refused : (settledFactors (collectFactors operands) : Except Error Settled) = .error c) :
    (productOf operands : Except Error Expr) = .error c := by
  rw [productOf_eq]
  dsimp only
  rw [if_neg coefficient, refused]
  rfl

section Agreement

variable {order : VisitOrder}

/-- A refusal that some order comes upon is there in the stored order. -/
theorem VisitOrder.settledFactors_error {factors visited : List Factor} {c : Error}
    (allowed : order.allows factors visited)
    (agree : Agree order.Stored (settledFactors visited : Except Error Settled) (.error c)) :
    Agree order.Stored (settledFactors factors : Except Error Settled) (.error c) := by
  obtain ⟨d, refused, same⟩ := agree.eq_error
  obtain ⟨d', refused'⟩ := exists_settledFactors_error_perm (order.perm allowed) refused
  rw [refused']
  refine .refused fun stored => ?_
  rw [stored allowed, refused'] at refused
  exact (Except.error.inj refused).trans (same stored)

/-- What some order settles to is the same as in the stored order, and can be multiplied on. -/
theorem VisitOrder.exists_settledFactors {operands : List Expr} {visited : List Factor}
    {settled : Settled} (canonical : ∀ e ∈ operands, e.Canonical)
    (allowed : order.allows (collectFactors operands) visited)
    (found : (settledFactors visited : Except Error Settled) = .ok settled) :
    ∃ settled', (settledFactors (collectFactors operands) : Except Error Settled) = .ok settled' ∧
      settled.Perm settled' ∧ sortFactors settled.kept = settled'.kept ∧
      ∀ (q : Rat), ∀ e ∈ settled'.rewritten ++ partsOf settled'.kept ++ [number q], e.Canonical := by
  obtain ⟨settled', found', same⟩ := exists_settledFactors_perm (order.perm allowed) found
  have collected := collected_collectFactors canonical
  have form := (settledFactors_eq_ok_iff.mp found').canonical collected
  refine ⟨settled', found', same, sortFactors_eq ?_ same.kept, fun q => form.again collected⟩
  exact (collected.sublist form.sublist).increasing

theorem Settled.Perm.restart {settled others : Settled} (perm : settled.Perm others) (q : Rat) :
    (settled.rewritten ++ partsOf settled.kept ++ [number q]).Perm
      (others.rewritten ++ partsOf others.kept ++ [number q]) :=
  (perm.rewritten.append (perm.kept.map _)).append_right _

mutual

/-- Whatever the order of the visits, the outcome is that of the product. -/
theorem ProductVisit.agree : ∀ {operands outcome}, ProductVisit order operands outcome →
    (∀ e ∈ operands, e.Canonical) → Agree order.Stored (productOf operands) outcome
  | operands, _, .zero vanishes, _ => by
    rw [productOf_eq_settled, if_pos vanishes]
    exact .ok _
  | operands, _, .refused coefficient allowed settles, canonical => by
    have collected := collected_collectFactors canonical
    have agree := settles.agree (collected.of_perm (order.perm allowed))
    obtain ⟨d, refused, same⟩ := (VisitOrder.settledFactors_error allowed agree).eq_error
    rw [productOf_of_refused coefficient refused]
    exact .refused same
  | operands, _, .vanished coefficient allowed settles vanishes, canonical => by
    have collected := collected_collectFactors canonical
    have agree := settles.agree (collected.of_perm (order.perm allowed))
    obtain ⟨settled', settling, same, _⟩ :=
      VisitOrder.exists_settledFactors canonical allowed agree.eq_ok
    rw [same.coefficient] at vanishes
    rw [productOf_of_settledFactors coefficient settling vanishes, if_pos rfl]
    exact .ok _
  | operands, _, .assembled allowed settles nonzero done, canonical => by
    have collected := collected_collectFactors canonical
    have agree := settles.agree (collected.of_perm (order.perm allowed))
    obtain ⟨settled', settling, same, sorted, _⟩ :=
      VisitOrder.exists_settledFactors canonical allowed agree.eq_ok
    have coefficient := left_ne_zero_of_mul nonzero
    rw [same.coefficient] at nonzero ⊢
    rw [productOf_of_settledFactors coefficient settling rfl, if_neg nonzero,
      if_pos (same.rewritten_eq_nil_iff.mp done), sorted]
    exact .ok _
  | operands, _, @ProductVisit.again _ _ _ settled _ allowed settles nonzero rewritten rest,
      canonical => by
    have collected := collected_collectFactors canonical
    have agree := settles.agree (collected.of_perm (order.perm allowed))
    obtain ⟨settled', settling, same, _, canonical_restart⟩ :=
      VisitOrder.exists_settledFactors canonical allowed agree.eq_ok
    have coefficient := left_ne_zero_of_mul nonzero
    have restart := same.restart (collectCoefficient operands * settled.coefficient)
    have later := rest.agree fun e member => canonical_restart _ e (restart.mem_iff.mp member)
    rw [same.coefficient] at nonzero restart later
    rw [productOf_of_settledFactors coefficient settling rfl, if_neg nonzero,
      if_neg (mt same.rewritten_eq_nil_iff.mpr rewritten),
      productOf_perm (canonical_restart _) restart.symm]
    exact later

theorem SettleVisit.agree : ∀ {factors outcome}, SettleVisit order factors outcome →
    (∀ b e, (b, e) ∈ factors → b.Canonical ∧ e.Canonical) →
    Agree order.Stored (settledFactors factors) outcome
  | _, _, .nil, _ => by
    rw [settledFactors_nil]
    exact .ok _
  | _, _, .dropped tail, canonical => by
    rw [settledFactors_cons, if_pos (by decide)]
    exact tail.agree fun b e member => canonical b e (List.mem_cons_of_mem _ member)
  | _, _, .raised exponent raises tail, canonical => by
    have here := canonical _ _ (List.mem_cons_self ..)
    have later := tail.agree fun b e member => canonical b e (List.mem_cons_of_mem _ member)
    rw [settledFactors_cons, if_neg (by rwa [isZero, isNumber_iff]),
      (raises.agree here.1 here.2).eq_ok]
    exact later.map _
  | _, _, .refused exponent raises, canonical => by
    have here := canonical _ _ (List.mem_cons_self ..)
    rw [settledFactors_cons, if_neg (by rwa [isZero, isNumber_iff])]
    exact (raises.agree here.1 here.2).bind_error _

theorem PowerVisit.agree : ∀ {b e outcome}, PowerVisit order b e outcome → b.Canonical →
    e.Canonical → Agree order.Stored (powerOf b e) outcome
  | _, _, _, .zeroBase q, _, _ => by
    rw [powerOf_zero_number]
    exact .refl _
  | _, _, _, .zeroExponent base, _, _ => by
    rw [powerOf_exponent_zero base]
    exact .ok _
  | _, _, _, .oneExponent base, _, _ => by
    rw [powerOf_exponent_one base]
    exact .ok _
  | _, _, _, .oneBase zero one, _, _ => by
    rw [powerOf_base_one zero one]
    exact .ok _
  | _, _, _, .exact base_zero base_one zero one, _, _ => by
    rw [powerOf_number base_zero base_one zero one]
    exact .refl _
  | _, _, _, .exponentRefused zero one exponent, base, integer => by
    cases base with
    | power form base inner_exponent =>
      rw [powerOf_power zero one]
      exact (exponent.agree (canonical_pair inner_exponent integer)).bind_error _
  | _, _, _, .nested zero one exponent inner, base, integer => by
    cases base with
    | power form base inner_exponent =>
      have operands := canonical_pair inner_exponent integer
      have total := (exponent.agree operands).eq_ok
      rw [powerOf_power zero one, total]
      exact inner.agree base (canonical_productOf total operands)
  | _, _, _, .coefficientRefused zero one number_power, _, _ => by
    rw [powerOf_product zero one, number_power]
    exact .refused fun _ => rfl
  | _, _, _, .factorRefused zero one number_power powers, base, _ => by
    obtain ⟨_, _, kept⟩ := canonical_product_iff.mp base
    have agree := powers.agree fun b e member =>
      ⟨kept.bases_canonical b e member, kept.exponents_canonical b e member⟩
    rw [powerOf_product zero one, number_power]
    exact agree.bind_error _
  | _, _, _, .distributed zero one number_power powers whole, base, _ => by
    obtain ⟨_, _, kept⟩ := canonical_product_iff.mp base
    have raised := (powers.agree fun b e member =>
      ⟨kept.bases_canonical b e member, kept.exponents_canonical b e member⟩).eq_ok
    have canonical := (PowersRun.of_powersOf raised).canonical kept.bases_canonical
      kept.exponents_canonical
    have agree := whole.agree (List.forall_mem_cons.mpr ⟨canonical_number _, canonical⟩)
    rw [powerOf_product zero one, number_power]
    change Agree _ (powersOf _ _ >>= _) _
    rw [raised]
    exact agree
  | _, _, _, .kept canonical, _, _ => by
    rw [powerOf_of_canonicalPower canonical]
    exact .ok _

theorem PowersVisit.agree : ∀ {factors n outcome}, PowersVisit order factors n outcome →
    (∀ b e, (b, e) ∈ factors → b.Canonical ∧ e.Canonical) →
    Agree order.Stored (powersOf factors n) outcome
  | _, _, _, .nil, _ => by
    rw [powersOf_nil]
    exact .ok _
  | _, _, _, .exponentRefused exponent, canonical => by
    have here := canonical _ _ (List.mem_cons_self ..)
    rw [powersOf_cons]
    exact (exponent.agree (canonical_pair here.2 (canonical_number _))).bind_error _
  | _, n, _, .refused exponent raises, canonical => by
    have here := canonical _ _ (List.mem_cons_self ..)
    have operands := canonical_pair here.2 (canonical_number n)
    have total := (exponent.agree operands).eq_ok
    have agree := raises.agree here.1 (canonical_productOf total operands)
    rw [powersOf_cons, total]
    exact agree.bind_error _
  | _, n, _, .cons exponent raises tail, canonical => by
    have here := canonical _ _ (List.mem_cons_self ..)
    have operands := canonical_pair here.2 (canonical_number n)
    have total := (exponent.agree operands).eq_ok
    have raised := (raises.agree here.1 (canonical_productOf total operands)).eq_ok
    have later := tail.agree fun b e member => canonical b e (List.mem_cons_of_mem _ member)
    rw [powersOf_cons, total]
    change Agree _ (powerOf _ _ >>= _) _
    rw [raised]
    exact later.map _

end

end Agreement

theorem sizeOfBases_perm {factors others : List Factor} (perm : factors.Perm others) :
    sizeOfBases factors = sizeOfBases others := by
  induction perm with
  | nil => rfl
  | cons factor _ ih => rw [sizeOfBases_cons, sizeOfBases_cons, ih]
  | swap first second rest =>
    simp only [sizeOfBases_cons]
    omega
  | trans _ _ left right => exact left.trans right

section Existence

variable (order : VisitOrder)

mutual

/-- In whatever order the factors are visited, the product comes to an end. -/
theorem exists_productVisit {operands : List Expr} (canonical : ∀ e ∈ operands, e.Canonical) :
    ∃ outcome, ProductVisit order operands outcome := by
  by_cases coefficient : collectCoefficient operands = 0
  · exact ⟨_, .zero coefficient⟩
  obtain ⟨visited, allowed⟩ := order.exists_visited (collectFactors operands)
  have perm := order.perm allowed
  have stored := (collected_collectFactors canonical).of_perm perm
  obtain ⟨outcome, settles⟩ := exists_settleVisit stored
  match outcome, settles with
  | .error cause, settles => exact ⟨_, .refused coefficient allowed settles⟩
  | .ok settled, settles =>
    by_cases vanishes : collectCoefficient operands * settled.coefficient = 0
    · exact ⟨_, .vanished coefficient allowed settles vanishes⟩
    by_cases done : settled.rewritten = []
    · exact ⟨_, .assembled allowed settles vanishes done⟩
    · have found := (settles.agree stored).eq_ok
      obtain ⟨_, _, same, _, canonical_restart⟩ :=
        VisitOrder.exists_settledFactors canonical allowed found
      have restart := same.restart (collectCoefficient operands * settled.coefficient)
      obtain ⟨outcome, rest⟩ := exists_productVisit fun e member =>
        canonical_restart _ e (restart.mem_iff.mp member)
      exact ⟨outcome, .again allowed settles vanishes done rest⟩
termination_by 3 * totalWeight operands + 2
decreasing_by
  · have := sizeOfBases_collectFactors_le operands
    have := sizeOfBases_perm perm
    omega
  · have := totalWeight_partsOf_le settled.kept
    have := sizeOfBases_collectFactors_le operands
    have := sizeOfBases_perm perm
    have := (within_of_settledFactors found).2 done
    simp only [Settled.weight] at this
    simp only [totalWeight_append, totalWeight_cons, totalWeight_nil, weight_number]
    omega

theorem exists_settleVisit {factors : List Factor}
    (canonical : ∀ b e, (b, e) ∈ factors → b.Canonical ∧ e.Canonical) :
    ∃ outcome, SettleVisit order factors outcome := by
  match factors with
  | [] => exact ⟨_, .nil⟩
  | (b, e) :: rest =>
    obtain ⟨outcome, tail⟩ := exists_settleVisit fun c f member =>
      canonical c f (List.mem_cons_of_mem _ member)
    by_cases zero : e = number 0
    · subst zero
      exact ⟨_, .dropped tail⟩
    · have here := canonical b e (List.mem_cons_self ..)
      obtain ⟨raised, raises⟩ := exists_powerVisit here.1 here.2
      match raised, raises with
      | .error cause, raises => exact ⟨_, .refused zero raises⟩
      | .ok r, raises => exact ⟨_, .raised zero raises tail⟩
termination_by 3 * sizeOfBases factors + 1
decreasing_by
  all_goals
    have := size_pos b
    simp only [sizeOfBases_cons]
    omega

theorem exists_powerVisit {b e : Expr} (base : b.Canonical) (exponent : e.Canonical) :
    ∃ outcome, PowerVisit order b e outcome := by
  cases powerRule b e with
  | zeroBase q => exact ⟨_, .zeroBase q⟩
  | zeroExponent base => exact ⟨_, .zeroExponent base⟩
  | oneExponent base => exact ⟨_, .oneExponent base⟩
  | oneBase zero one => exact ⟨_, .oneBase zero one⟩
  | none form => exact ⟨_, .kept form⟩
  | @inside _ n folds base_zero base_one zero one =>
    match b, base with
    | number q, _ =>
      have nonzero : q ≠ 0 := fun equal => base_zero (congrArg number equal)
      have not_one : q ≠ 1 := fun equal => base_one (congrArg number equal)
      exact ⟨_, .exact nonzero not_one zero one⟩
    | power c f, .power form inner inner_exponent =>
      have operands := canonical_pair inner_exponent (canonical_number n)
      obtain ⟨total, multiplied⟩ := exists_productVisit operands
      match total, multiplied with
      | .error cause, multiplied => exact ⟨_, .exponentRefused zero one multiplied⟩
      | .ok k, multiplied =>
        have found := (multiplied.agree operands).eq_ok
        obtain ⟨outcome, raises⟩ := exists_powerVisit inner (canonical_productOf found operands)
        exact ⟨outcome, .nested zero one multiplied raises⟩
    | product coefficient factors, base =>
      obtain ⟨_, _, kept⟩ := canonical_product_iff.mp base
      have canonical : ∀ c f, (c, f) ∈ factors → c.Canonical ∧ f.Canonical := fun c f member =>
        ⟨kept.bases_canonical c f member, kept.exponents_canonical c f member⟩
      cases number_power : exactPower coefficient n with
      | error cause => exact ⟨_, .coefficientRefused zero one number_power⟩
      | ok p =>
        obtain ⟨powers, raises⟩ := exists_powersVisit n canonical
        match powers, raises with
        | .error cause, raises => exact ⟨_, .factorRefused zero one number_power raises⟩
        | .ok rs, raises =>
          have found := (raises.agree canonical).eq_ok
          have raised := (PowersRun.of_powersOf found).canonical kept.bases_canonical
            kept.exponents_canonical
          obtain ⟨outcome, whole⟩ := exists_productVisit
            (List.forall_mem_cons.mpr ⟨canonical_number p, raised⟩)
          exact ⟨outcome, .distributed zero one number_power raises whole⟩
termination_by 3 * b.size
decreasing_by
  · have := weight_le_size f
    simp only [totalWeight_cons, totalWeight_nil, weight_number, size]
    omega
  · simp only [size]
    omega
  · simp only [size]
    omega
  · have := totalWeight_le_of_powersOf found
    have := sizeOfBases_le factors
    simp only [totalWeight_cons, weight_number, size]
    omega

theorem exists_powersVisit {factors : List Factor} (n : Int)
    (canonical : ∀ b e, (b, e) ∈ factors → b.Canonical ∧ e.Canonical) :
    ∃ outcome, PowersVisit order factors n outcome := by
  match factors with
  | [] => exact ⟨_, .nil⟩
  | (b, e) :: rest =>
    have here := canonical b e (List.mem_cons_self ..)
    have operands := canonical_pair here.2 (canonical_number n)
    obtain ⟨total, multiplied⟩ := exists_productVisit operands
    match total, multiplied with
    | .error cause, multiplied => exact ⟨_, .exponentRefused multiplied⟩
    | .ok k, multiplied =>
      have found := (multiplied.agree operands).eq_ok
      obtain ⟨raised, raises⟩ := exists_powerVisit here.1 (canonical_productOf found operands)
      match raised, raises with
      | .error cause, raises => exact ⟨_, .refused multiplied raises⟩
      | .ok r, raises =>
        obtain ⟨outcome, tail⟩ := exists_powersVisit n fun c f member =>
          canonical c f (List.mem_cons_of_mem _ member)
        exact ⟨_, .cons multiplied raises tail⟩
termination_by 3 * sizeOfFactors factors + 1
decreasing_by
  · have := weight_le_size e
    have := size_pos b
    simp only [totalWeight_cons, totalWeight_nil, weight_number, sizeOfFactors]
    omega
  · simp only [sizeOfFactors]
    omega
  · simp only [sizeOfFactors]
    omega

end

end Existence

/-- Every pass visits the factors as they are stored. -/
def storedOrder : VisitOrder where
  allows factors visited := visited = factors
  exists_visited factors := ⟨factors, rfl⟩
  perm := by
    rintro factors _ rfl
    rfl

/-- Every pass visits the factors in an order of its own. -/
def anyOrder : VisitOrder where
  allows factors visited := visited.Perm factors
  exists_visited factors := ⟨factors, .refl _⟩
  perm := id

theorem Agree.eq {alike : Prop} {α : Type} {x y : Except Error α} (agree : Agree alike x y)
    (same : alike) : x = y := by
  cases agree with
  | ok a => rfl
  | refused causes => rw [causes same]

/-- The product is what comes of visiting the factors in the order in which they are stored. -/
theorem productVisit_storedOrder_iff {operands : List Expr}
    (canonical : ∀ e ∈ operands, e.Canonical) {outcome : Except Error Expr} :
    ProductVisit storedOrder operands outcome ↔ productOf operands = outcome := by
  have unique : ∀ outcome, ProductVisit storedOrder operands outcome →
      productOf operands = outcome := fun outcome visit => (visit.agree canonical).eq id
  refine ⟨unique outcome, ?_⟩
  rintro rfl
  obtain ⟨outcome, visit⟩ := exists_productVisit storedOrder canonical
  rwa [unique outcome visit]

/-- Neither the order of the operands nor the orders in which the passes visit the collected factors
show in a product: the results are equal, or all are refused. -/
theorem productOf_order_independent {operands others : List Expr}
    (canonical : ∀ e ∈ operands, e.Canonical) (perm : operands.Perm others) :
    (productOf operands : Except Error Expr) = productOf others ∧
      ∀ order, (∃ outcome, ProductVisit order others outcome) ∧
        ∀ outcome, ProductVisit order others outcome →
          (∃ r, (productOf operands : Except Error Expr) = .ok r ∧ outcome = .ok r) ∨
          ∃ c d, (productOf operands : Except Error Expr) = .error c ∧ outcome = .error d := by
  have canonical_others : ∀ e ∈ others, e.Canonical := fun e member =>
    canonical e (perm.mem_iff.mpr member)
  have same := productOf_perm canonical perm
  refine ⟨same, fun order => ⟨exists_productVisit order canonical_others, ?_⟩⟩
  intro outcome visit
  rw [same]
  cases product : (productOf others : Except Error Expr) with
  | ok r =>
    have agree := visit.agree canonical_others
    rw [product] at agree
    cases agree
    exact .inl ⟨r, rfl, rfl⟩
  | error c =>
    have agree := visit.agree canonical_others
    rw [product] at agree
    cases agree
    exact .inr ⟨c, _, rfl, rfl⟩

/-- Two square roots of two meet around a symbol. -/
theorem productOf_order_independent_roots :
    (productOf [power (number 2) (number (1 / 2)), symbol "x",
        power (number 2) (number (1 / 2))] : Except Error Expr) =
      productOf [symbol "x", power (number 2) (number (1 / 2)),
        power (number 2) (number (1 / 2))] ∧
      ProductVisit anyOrder [symbol "x", power (number 2) (number (1 / 2)),
        power (number 2) (number (1 / 2))] (.ok (product 2 [(symbol "x", number 1)])) := by
  have root : (power (number 2) (number (1 / 2))).Canonical := by
    refine .power ⟨?_, ?_, ?_, ?_, ?_⟩ (canonical_number _) (canonical_number _) <;> decide +kernel
  have canonical : ∀ e ∈ [power (number 2) (number (1 / 2)), symbol "x",
      power (number 2) (number (1 / 2))], e.Canonical :=
    List.forall_mem_cons.mpr ⟨root, canonical_pair (.symbol "x") root⟩
  have product : (productOf [power (number 2) (number (1 / 2)), symbol "x",
      power (number 2) (number (1 / 2))] : Except Error Expr) =
        .ok (product 2 [(symbol "x", number 1)]) := by cbv
  obtain ⟨same, visits⟩ := productOf_order_independent canonical (.swap ..)
  refine ⟨same, ?_⟩
  obtain ⟨⟨outcome, visit⟩, agrees⟩ := visits anyOrder
  rw [product] at agrees
  obtain ⟨r, found, rfl⟩ | ⟨c, _, refused, _⟩ := agrees outcome visit
  · cases found
    exact visit
  · cases refused

end SymbolicAlgebra
