import SymbolicAlgebra.Proofs.Grouping
import SymbolicAlgebra.Proofs.VisitOrder

namespace SymbolicAlgebra

open SymbolicAlgebra.Expr

/-- A product or a power that is to be found. -/
inductive Call where
  | product (operands : List Expr)
  | power (base exponent : Expr)

namespace Call

def Canonical : Call → Prop
  | product operands => ∀ e ∈ operands, e.Canonical
  | power b e => b.Canonical ∧ e.Canonical

/-- The weight of operands, or the size of a base, whatever its exponent. The factor keeps apart what
a product makes of its bases and what a power makes of its own. -/
def bound : Call → Nat
  | product operands => 3 * totalWeight operands + 2
  | power b _ => 3 * b.size

end Call

/-- The products and powers that are found on the way to one, when each pass visits the collected
factors in an allowed order: every base is raised, and what was rewritten starts the product over;
a power multiplies the exponents inside of its base, raises the bases there, and multiplies the
powers of factors together. -/
inductive Calls (order : VisitOrder) : Call → Call → Prop where
  | raise {operands visited b e} (allowed : order.allows (collectFactors operands) visited)
      (stored : (b, e) ∈ visited) : Calls order (.product operands) (.power b e)
  | restart {operands visited settled} (allowed : order.allows (collectFactors operands) visited)
      (settles : SettleVisit order visited (.ok settled)) (rewritten : settled.rewritten ≠ []) :
      Calls order (.product operands) (.product (settled.rewritten ++ partsOf settled.kept ++
        [number (collectCoefficient operands * settled.coefficient)]))
  | innerExponent {c f} {n : Int} :
      Calls order (.power (power c f) (number n)) (.product [f, number n])
  | innerBase {c f k} {n : Int} (exponent : ProductVisit order [f, number n] (.ok k)) :
      Calls order (.power (power c f) (number n)) (.power c k)
  | factorExponent {q factors b e} {n : Int} (stored : (b, e) ∈ factors) :
      Calls order (.power (product q factors) (number n)) (.product [e, number n])
  | factorBase {q factors b e k} {n : Int} (stored : (b, e) ∈ factors)
      (exponent : ProductVisit order [e, number n] (.ok k)) :
      Calls order (.power (product q factors) (number n)) (.power b k)
  | distribute {q factors p rs} {n : Int} (powers : PowersVisit order factors n (.ok rs)) :
      Calls order (.power (product q factors) (number n)) (.product (number p :: rs))

/-- The operands that a product is left with after it was started over some number of times. -/
inductive Restarts (order : VisitOrder) : Nat → List Expr → List Expr → Prop where
  | none {operands} : Restarts order 0 operands operands
  | next {operands again later count} (restart : Calls order (.product operands) (.product again))
      (rest : Restarts order count again later) : Restarts order (count + 1) operands later

theorem size_le_sizeOfBases {b e : Expr} {factors : List Factor} (member : (b, e) ∈ factors) :
    b.size ≤ sizeOfBases factors := by
  induction factors with
  | nil => cases member
  | cons head rest ih =>
    rw [sizeOfBases_cons]
    rcases List.mem_cons.mp member with rfl | later
    · exact Nat.le_add_right ..
    · exact Nat.le_add_left_of_le (ih later)

section Descent

variable {order : VisitOrder}

/-- The next pass over a product has canonical operands again, and they weigh less. -/
theorem restart_descends {operands : List Expr} {visited : List Factor} {settled : Settled} (q : Rat)
    (canonical : ∀ e ∈ operands, e.Canonical)
    (allowed : order.allows (collectFactors operands) visited)
    (settles : SettleVisit order visited (.ok settled)) (rewritten : settled.rewritten ≠ []) :
    (∀ e ∈ settled.rewritten ++ partsOf settled.kept ++ [number q], e.Canonical) ∧
      totalWeight (settled.rewritten ++ partsOf settled.kept ++ [number q]) <
        totalWeight operands := by
  have stored := (collected_collectFactors canonical).of_perm (order.perm allowed)
  have found := (settles.agree stored).eq_ok
  obtain ⟨_, _, same, _, canonical_restart⟩ :=
    VisitOrder.exists_settledFactors canonical allowed found
  refine ⟨fun e member => canonical_restart q e ((same.restart q).mem_iff.mp member), ?_⟩
  have := totalWeight_partsOf_le settled.kept
  have := sizeOfBases_collectFactors_le operands
  have := sizeOfBases_perm (order.perm allowed)
  have := (within_of_settledFactors found).2 rewritten
  simp only [Settled.weight] at this
  simp only [totalWeight_append, totalWeight_cons, totalWeight_nil, weight_number]
  omega

/-- Exponents multiplied with an integer are canonical, in whatever order they are multiplied. -/
theorem canonical_exponentVisit {e k : Expr} {n : Int} (canonical : e.Canonical)
    (exponent : ProductVisit order [e, number n] (.ok k)) : k.Canonical := by
  have operands := canonical_pair canonical (canonical_number n)
  exact canonical_productOf (exponent.agree operands).eq_ok operands

/-- Whatever is called on the way is canonical again and smaller. -/
theorem Calls.descends {call next : Call} (calls : Calls order call next)
    (canonical : call.Canonical) : next.Canonical ∧ next.bound < call.bound := by
  cases calls with
  | @raise operands visited b e allowed stored =>
    have perm := order.perm allowed
    have member := perm.mem_iff.mp stored
    have light := sizeOfBases_collectFactors_le operands
    have part : b.size ≤ sizeOfBases (collectFactors operands) := size_le_sizeOfBases member
    refine ⟨(collected_collectFactors canonical).of_perm perm b e stored, ?_⟩
    simp only [Call.bound]
    omega
  | restart allowed settles rewritten =>
    obtain ⟨canonical_again, less⟩ := restart_descends _ canonical allowed settles rewritten
    refine ⟨canonical_again, ?_⟩
    simp only [Call.bound]
    omega
  | @innerExponent c f n =>
    obtain ⟨base, integer⟩ := canonical
    cases base with
    | power form inner exponent =>
      have := weight_le_size f
      refine ⟨canonical_pair exponent integer, ?_⟩
      simp only [Call.bound, totalWeight_cons, totalWeight_nil, weight_number, size]
      omega
  | innerBase exponent =>
    obtain ⟨base, _⟩ := canonical
    cases base with
    | power form inner inner_exponent =>
      refine ⟨⟨inner, canonical_exponentVisit inner_exponent exponent⟩, ?_⟩
      simp only [Call.bound, size]
      omega
  | @factorExponent q factors b e n stored =>
    obtain ⟨_, _, kept⟩ := canonical_product_iff.mp canonical.1
    have := weight_le_size e
    have := size_factor_lt stored
    refine ⟨canonical_pair (kept.exponents_canonical b e stored) canonical.2, ?_⟩
    simp only [Call.bound, totalWeight_cons, totalWeight_nil, weight_number, size]
    omega
  | @factorBase q factors b e k n stored exponent =>
    obtain ⟨_, _, kept⟩ := canonical_product_iff.mp canonical.1
    have := size_factor_lt stored
    refine ⟨⟨kept.bases_canonical b e stored,
      canonical_exponentVisit (kept.exponents_canonical b e stored) exponent⟩, ?_⟩
    simp only [Call.bound, size]
    omega
  | @distribute q factors p rs n powers =>
    obtain ⟨_, _, kept⟩ := canonical_product_iff.mp canonical.1
    have found := (powers.agree fun b e stored =>
      ⟨kept.bases_canonical b e stored, kept.exponents_canonical b e stored⟩).eq_ok
    have raised := (PowersRun.of_powersOf found).canonical kept.bases_canonical
      kept.exponents_canonical
    have := totalWeight_le_of_powersOf found
    have := sizeOfBases_le factors
    refine ⟨List.forall_mem_cons.mpr ⟨canonical_number p, raised⟩, ?_⟩
    simp only [Call.bound, totalWeight_cons, weight_number, size]
    omega

/-- No product and no power calls for others without end. -/
theorem acc_calls {call : Call} (canonical : call.Canonical) :
    Acc (fun next call => Calls order call next) call := by
  induction bound_eq : call.bound using Nat.strongRecOn generalizing call with
  | ind bound ih =>
    refine .intro call fun next calls => ?_
    obtain ⟨canonical_next, less⟩ := calls.descends canonical
    exact ih next.bound (bound_eq ▸ less) canonical_next rfl

/-- Each time that a product is started over its operands weigh less. -/
theorem Restarts.add_le {count : Nat} {operands later : List Expr}
    (restarts : Restarts order count operands later) (canonical : ∀ e ∈ operands, e.Canonical) :
    count + totalWeight later ≤ totalWeight operands := by
  induction restarts with
  | none => omega
  | next restart rest ih =>
    obtain ⟨canonical_again, less⟩ := restart.descends canonical
    have := ih canonical_again
    simp only [Call.bound] at less
    omega

end Descent

/-- In whatever orders the collected factors are visited, products and powers come to an end with a
result or a refusal. None of them calls for others without end, and a product is not started over
more often than its operands have weight. -/
theorem products_and_powers_end (order : VisitOrder) :
    (∀ operands, (∀ e ∈ operands, e.Canonical) →
      (∃ outcome, ProductVisit order operands outcome) ∧
      Acc (fun next call => Calls order call next) (.product operands) ∧
      ∀ count later, Restarts order count operands later → count ≤ totalWeight operands) ∧
    ∀ b e, b.Canonical → e.Canonical →
      (∃ outcome, PowerVisit order b e outcome) ∧
      Acc (fun next call => Calls order call next) (.power b e) := by
  refine ⟨fun operands canonical => ⟨exists_productVisit order canonical, acc_calls canonical, ?_⟩,
    fun b e base exponent => ⟨exists_powerVisit order base exponent, acc_calls ⟨base, exponent⟩⟩⟩
  intro count later restarts
  have := restarts.add_le canonical
  omega

/-- Two roots of a product, which start their product over, and a root of a nested product raised to
a power that opens it. -/
theorem products_and_powers_end_roots :
    ((∃ outcome, ProductVisit anyOrder [rootOfProduct, rootOfProduct] outcome) ∧
      ∀ count later, Restarts anyOrder count [rootOfProduct, rootOfProduct] later → count ≤ 16) ∧
    ∃ outcome, PowerVisit anyOrder rootOfNested (number 6) outcome := by
  obtain ⟨products, powers⟩ := products_and_powers_end anyOrder
  obtain ⟨ends, _, restarts⟩ := products [rootOfProduct, rootOfProduct]
    (canonical_pair canonical_rootOfProduct canonical_rootOfProduct)
  exact ⟨⟨ends, restarts⟩,
    (powers rootOfNested (number 6) canonical_rootOfNested (canonical_number 6)).1⟩

end SymbolicAlgebra
