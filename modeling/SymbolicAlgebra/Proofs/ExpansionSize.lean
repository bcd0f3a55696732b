import Mathlib.Data.Sym.Card
import SymbolicAlgebra.Proofs.Closure
import SymbolicAlgebra.Proofs.Multiples
import SymbolicAlgebra.Proofs.PowersOfPowers

namespace SymbolicAlgebra

open SymbolicAlgebra.Expr

theorem binomial_eq_choose (n k : Nat) : binomial n k = n.choose k := by
  induction k with
  | zero => rw [binomial, Nat.choose_zero_right]
  | succ k ih =>
    rw [binomial, ih, ← Nat.choose_succ_right_eq, Nat.mul_div_cancel _ (Nat.succ_pos k)]

theorem expansionTerms_eq (summands n : Nat) :
    expansionTerms summands n = (n + (summands - 1)).choose (summands - 1) := by
  rw [expansionTerms, binomial_eq_choose]
  rcases Nat.le_total n (summands - 1) with fewer | fewer
  · rw [Nat.min_eq_left fewer, Nat.choose_symm_add]
  · rw [Nat.min_eq_right fewer]

/-- There are only so many ways to choose `n` out of `k` things with repetition. -/
theorem length_le_choose {k n : Nat} {choices : List (Multiset (Fin k))} (distinct : choices.Nodup)
    (sizes : ∀ choice ∈ choices, choice.card = n) (some_thing : 0 < k) :
    choices.length ≤ (n + k - 1).choose (k - 1) := by
  have inside : choices.toFinset ⊆ (Finset.univ : Finset (Sym (Fin k) n)).image Subtype.val := by
    intro choice member
    let sized : Sym (Fin k) n := ⟨choice, sizes choice (List.mem_toFinset.mp member)⟩
    exact Finset.mem_image.mpr ⟨sized, Finset.mem_univ sized, rfl⟩
  have count : (k + n - 1).choose n = (n + k - 1).choose (k - 1) := by
    rw [Nat.add_comm k n, Nat.add_sub_assoc some_thing, Nat.choose_symm_add]
  calc choices.length = choices.toFinset.card := (List.toFinset_card_of_nodup distinct).symm
    _ ≤ (Finset.univ : Finset (Sym (Fin k) n)).card :=
        (Finset.card_le_card inside).trans Finset.card_image_le
    _ = (n + k - 1).choose (k - 1) := by
        rw [Finset.card_univ, Sym.card_sym_eq_choose, Fintype.card_fin, count]

/-- The product of the factors, taken one after another. -/
def productInTurn (factors : List Expr) : Except Error Expr :=
  factors.foldlM (fun acc e => productOf [acc, e]) (number 1)

/-- Products of up to `n` of the summands, each as often as one likes, are no sums. -/
def NoProductIsSum (summands : List Expr) (n : Nat) : Prop :=
  ∀ factors ⊆ summands, factors.length ≤ n → ∀ r, productInTurn factors = .ok r →
    ∀ c terms, r ≠ sum c terms

/-- Products of `n` of the summands are the same in every order, up to a number, and none on the way
to them is a sum. -/
structure Collectible (summands : List Expr) (n : Nat) : Prop where
  no_sum : NoProductIsSum summands n
  order : ∀ factors ⊆ summands, factors.length = n → ∀ others, factors.Perm others → ∀ r r',
    productInTurn factors = .ok r → productInTurn others = .ok r' → r'.IsMultipleOf r

theorem NoProductIsSum.mono {summands : List Expr} {m n : Nat} (le : m ≤ n)
    (no_sum : NoProductIsSum summands n) : NoProductIsSum summands m :=
  fun factors inside length => no_sum factors inside (length.trans le)

theorem productInTurn_append (factors : List Expr) (e : Expr) :
    productInTurn (factors ++ [e]) = productInTurn factors >>= fun acc => productOf [acc, e] := by
  rw [productInTurn, List.foldlM_append, productInTurn]
  refine bind_congr fun acc => ?_
  rw [List.foldlM_cons]
  exact bind_pure _

theorem canonical_productInTurn {factors : List Expr} {r : Expr}
    (found : productInTurn factors = .ok r) (canonical : ∀ e ∈ factors, e.Canonical) :
    r.Canonical :=
  foldlM_preserves found (canonical_number 1) fun e member _ _ acc step =>
    canonical_productOf step (canonical_pair acc (canonical e member))

/-- A multiple of a product of `n` of the summands, which stand at the chosen places, or zero. -/
def MultipleOfChosen (summands : List Expr) (n : Nat) (s : Expr) : Prop :=
  s = number 0 ∨ ∃ chosen : List (Fin summands.length), chosen.length = n ∧
    ∃ r, productInTurn (chosen.map summands.get) = .ok r ∧ s.IsMultipleOf r

theorem chosen_subset {summands : List Expr} (chosen : List (Fin summands.length)) :
    chosen.map summands.get ⊆ summands := by
  intro e member
  obtain ⟨i, _, rfl⟩ := List.mem_map.mp member
  exact List.get_mem ..

section Expansion

variable {b : Expr} (canonical : b.Canonical)

include canonical

theorem canonical_product_of_chosen {chosen : List (Fin (summandsOf b).length)} {r : Expr}
    (found : productInTurn (chosen.map (summandsOf b).get) = .ok r) : r.Canonical :=
  canonical_productInTurn found fun e member =>
    canonical_summandsOf canonical e (chosen_subset chosen member)

theorem multipleOfChosen_one {s : Expr} (member : s ∈ summandsOf b) :
    MultipleOfChosen (summandsOf b) 1 s := by
  obtain ⟨i, rfl⟩ := List.mem_iff_get.mp member
  have single := productOf_number 1 (canonical_summandsOf canonical _ member)
  rw [scale_one] at single
  refine .inr ⟨[i], rfl, (summandsOf b).get i, ?_, isMultipleOf_self _⟩
  rw [List.map_singleton, productInTurn, List.foldlM_cons, single]
  rfl

/-- A multiple of a product of summands, times one more summand, is a multiple of a product with one
more factor. -/
theorem MultipleOfChosen.productOf {n : Nat} {l s p : Expr}
    (left : MultipleOfChosen (summandsOf b) n l) (right : s ∈ summandsOf b)
    (no_sum : NoProductIsSum (summandsOf b) n)
    (found : (productOf [l, s] : Except Error Expr) = .ok p) :
    MultipleOfChosen (summandsOf b) (n + 1) p := by
  obtain rfl | ⟨chosen, length, r, product, q, nonzero, rfl⟩ := left
  · rw [productOf_of_mem_zero (List.mem_cons_self ..)] at found
    cases found
    exact .inl rfl
  · obtain ⟨i, rfl⟩ := List.mem_iff_get.mp right
    have other := no_sum _ (chosen_subset chosen) (by rw [List.length_map, length]) r product
    rw [productOf_scale_cons (canonical_product_of_chosen canonical product) other nonzero
      (List.forall_mem_singleton.mpr (canonical_summandsOf canonical _ right))] at found
    obtain ⟨r', next, rfl⟩ := map_eq_ok_iff.mp found
    refine .inr ⟨chosen ++ [i], ?_, r', ?_, q, nonzero, rfl⟩
    · rw [List.length_append, length, List.length_singleton]
    · rw [List.map_append, List.map_singleton, productInTurn_append, product]
      exact next

theorem multipleOfChosen_distribute {n : Nat} {acc r : Expr} (canonical_acc : acc.Canonical)
    (start : ∀ l ∈ summandsOf acc, MultipleOfChosen (summandsOf b) n l)
    (no_sum : NoProductIsSum (summandsOf b) (n + 1))
    (found : (distribute acc b : Except Error Expr) = .ok r) :
    ∀ s ∈ summandsOf r, MultipleOfChosen (summandsOf b) (n + 1) s := by
  obtain ⟨products, multiplied, found⟩ := bind_eq_ok_iff.mp found
  cases found
  have each : ∀ p ∈ products, p.Canonical ∧ MultipleOfChosen (summandsOf b) (n + 1) p := by
    intro p member
    obtain ⟨operands, pair, product⟩ := exists_of_mem_mapM multiplied member
    obtain ⟨l, left, pair⟩ := List.mem_flatMap.mp pair
    obtain ⟨s, right, rfl⟩ := List.mem_map.mp pair
    exact ⟨canonical_productOf product (canonical_pair (canonical_summandsOf canonical_acc l left)
        (canonical_summandsOf canonical s right)),
      (start l left).productOf canonical right (no_sum.mono (Nat.le_succ n)) product⟩
  have others : ∀ p ∈ products, ∀ c terms, p ≠ sum c terms := by
    intro p member
    obtain rfl | ⟨chosen, length, r, product, multiple⟩ := (each p member).2
    · simp
    · exact multiple.ne_sum (canonical_product_of_chosen canonical product)
        (no_sum _ (chosen_subset chosen) (by rw [List.length_map, length]) r product)
  intro s member
  obtain zero | ⟨p, inside, multiple⟩ :=
    isMultipleOf_of_mem_summandsOf (fun p inside => (each p inside).1) others member
  · exact .inl zero
  · obtain rfl | ⟨chosen, length, r, product, multiple'⟩ := (each p inside).2
    · obtain ⟨q, _, rfl⟩ := multiple
      exact .inl ((scale_number q 0).trans (by rw [mul_zero]))
    · exact .inr ⟨chosen, length, r, product,
        multiple.trans (canonical_product_of_chosen canonical product) multiple'⟩

theorem multipleOfChosen_distributeTimes {m n : Nat} {acc r : Expr} (canonical_acc : acc.Canonical)
    (start : ∀ l ∈ summandsOf acc, MultipleOfChosen (summandsOf b) n l)
    (no_sum : NoProductIsSum (summandsOf b) (n + m))
    (found : (distributeTimes b m acc : Except Error Expr) = .ok r) :
    r.Canonical ∧ ∀ s ∈ summandsOf r, MultipleOfChosen (summandsOf b) (n + m) s := by
  induction m generalizing n acc with
  | zero =>
    cases found
    exact ⟨canonical_acc, start⟩
  | succ m ih =>
    obtain ⟨next, distributed, found⟩ := bind_eq_ok_iff.mp found
    have step := multipleOfChosen_distribute canonical canonical_acc start
      (no_sum.mono (by omega)) distributed
    rw [← Nat.add_assoc, Nat.add_right_comm] at no_sum ⊢
    exact ih (canonical_distribute distributed canonical_acc canonical) step no_sum found

/-- There are at most as many summands as choices of `n` out of `k`: no two of them are multiples of
products with the same factors. -/
theorem length_summandsOf_le {n : Nat} {r : Expr} (collectible : Collectible (summandsOf b) n)
    (some_summand : 0 < (summandsOf b).length) (canonical_r : r.Canonical)
    (multiples : ∀ s ∈ summandsOf r, MultipleOfChosen (summandsOf b) n s) :
    (summandsOf r).length ≤ (n + (summandsOf b).length - 1).choose ((summandsOf b).length - 1) := by
  by_cases shape : ∃ c terms, r = sum c terms
  · obtain ⟨c, terms, rfl⟩ := shape
    have each : ∀ s ∈ summandsOf (sum c terms), ∃ chosen : List (Fin (summandsOf b).length),
        chosen.length = n ∧ ∃ r, productInTurn (chosen.map (summandsOf b).get) = .ok r ∧
          s.IsMultipleOf r := fun s member =>
      (multiples s member).resolve_left (ne_zero_of_mem_summandsOf canonical_r member)
    choose! chosen length product found multiple using each
    have distinct : ((summandsOf (sum c terms)).map fun s =>
        (chosen s : Multiset (Fin (summandsOf b).length))).Nodup := by
      rw [List.Nodup, List.pairwise_map]
      refine (pairwise_summandsOf canonical_r).imp_of_mem fun {s s'} member member' apart same => ?_
      -- The same places chosen in another order give the same product, up to a number.
      have order := (Multiset.coe_eq_coe.mp same).map (summandsOf b).get
      have products := collectible.order _ (chosen_subset _)
        (by rw [List.length_map, length s member]) _ order _ _ (found s member) (found s' member')
      have canonical_product := canonical_product_of_chosen canonical (found s member)
      have whole := canonical_summandsOf canonical_r s member
      exact apart (((multiple s' member').trans canonical_product products).trans whole
        ((multiple s member).symm canonical_product))
    have bound := length_le_choose distinct (n := n) ?_ some_summand
    · rwa [List.length_map] at bound
    · intro choice member
      obtain ⟨s, inside, rfl⟩ := List.mem_map.mp member
      exact (Multiset.coe_card _).trans (length s inside)
  · rw [summandsOf_eq_singleton fun c terms same => shape ⟨c, terms, same⟩]
    exact Nat.choose_pos (by omega)

end Expansion

section Unfolded

variable {summands : List Expr} (canonical : ∀ e ∈ summands, e.Canonical)

theorem assembleProduct_ne_sum {factors : List Factor} (collected : Collected factors)
    (unchanged : ∀ b x, (b, x) ∈ factors → CanonicalFactor b x)
    (not_lone_sum : ∀ c terms, factors ≠ [(sum c terms, number 1)]) {q : Rat} (nonzero : q ≠ 0) :
    ∀ c terms, assembleProduct q factors ≠ sum c terms := by
  by_cases empty : factors = []
  · rw [empty]
    simp [assembleProduct]
  · have kept : KeptFactors factors := ⟨empty, collected.increasing, unchanged, not_lone_sum,
      collected.bases_canonical, collected.exponents_canonical⟩
    rw [assembleProduct_eq_withCoefficient kept nonzero]
    exact kept.withCoefficient_ne_sum nonzero

include canonical

/-- If nothing folds in any product of up to `n` summands, then all of them are collectible. -/
theorem collectible_of_unfolded {n : Nat}
    (unchanged : ∀ factors ⊆ summands, factors.length ≤ n →
      ∀ b x, (b, x) ∈ mergedFactors factors → CanonicalFactor b x)
    (not_lone_sum : ∀ factors ⊆ summands, factors.length ≤ n →
      ∀ c terms, mergedFactors factors ≠ [(sum c terms, number 1)]) : Collectible summands n := by
  have single_pass (factors : List Expr) (inside : factors ⊆ summands)
      (length : factors.length ≤ n) :=
    productOf_of_canonicalFactors (unchanged factors inside length)
  have flat (factors : List Expr) (inside : factors ⊆ summands) (length : factors.length ≤ n) :
      productInTurn factors = productOf factors := by
    induction factors using List.reverseRecOn with
    | nil => exact (single_pass [] inside length).symm
    | append_singleton rest e ih =>
      obtain ⟨earlier, last⟩ := List.append_subset.mp inside
      have shorter : rest.length ≤ n := by
        rw [List.length_append] at length
        omega
      have product := single_pass rest earlier shorter
      rw [productInTurn_append, ih earlier shorter, product, single_pass _ inside length]
      have replaceable : Replaceable [e] rest := replaceable_of_unchanged _
        (unchanged rest earlier shorter)
        fun c terms lone => absurd lone (not_lone_sum rest earlier shorter c terms)
      exact replaceable.productOf_cons (fun f member => canonical f (earlier member))
        (fun f member => canonical f (last member)) product (single_pass _ inside length)
  refine ⟨fun factors inside length r found => ?_, ?_⟩
  · have merged := merged_mergedFactors fun e member => canonical e (inside member)
    rw [flat factors inside length, single_pass factors inside length] at found
    cases found
    split
    · simp
    · rename_i nonzero
      exact assembleProduct_ne_sum merged.collected (unchanged factors inside length)
        (not_lone_sum factors inside length) nonzero
  · intro factors inside length others perm r r' found found'
    have inside' : others ⊆ summands := fun e member => inside (perm.mem_iff.mpr member)
    rw [flat factors inside length.le,
      productOf_perm (fun e member => canonical e (inside member)) perm] at found
    rw [flat others inside' (perm.length_eq ▸ length.le)] at found'
    cases found.symm.trans found'
    exact isMultipleOf_self r

/-- Powers of symbols, functions and formal derivatives are collectible, whatever the exponents. -/
theorem collectible_of_indeterminates {n : Nat}
    (bases : ∀ b x, (b, x) ∈ summands.flatMap factorPart → b.IsIndeterminate) :
    Collectible summands n := by
  have merged_base {factors : List Expr} (inside : factors ⊆ summands) {b x : Expr}
      (stored : (b, x) ∈ mergedFactors factors) : b.IsIndeterminate := by
    obtain ⟨f, carried⟩ :=
      exists_of_mem_mergedFactors (fun e member => canonical e (inside member)) stored
    obtain ⟨e, member, part⟩ := List.mem_flatMap.mp carried
    exact bases b f (List.mem_flatMap.mpr ⟨e, inside member, part⟩)
  refine collectible_of_unfolded canonical (fun factors inside _ b x stored => ?_)
    fun factors inside _ c terms lone => ?_
  · exact canonicalFactor_of_free (merged_base inside stored).not_raisesInside
      (mem_mergedFactors_iff.mp stored).2
  · exact merged_base inside (lone ▸ List.mem_singleton_self _)

end Unfolded

/-- The size of an expansion: the power `n` of a sum of `k` summands is multiplied out only if there
are at most 4096 ways to choose `n` of them with repetition. If the summands are collectible, then
at most so many summands come out. -/
theorem expand_power_bounded {b r : Expr} {constant : Rat} {terms : List Multiple} {n : Int}
    (canonical : (power b (number n)).Canonical) (positive : 0 < n)
    (base : (expand b : Except Error Expr) = .ok (sum constant terms))
    (found : (expand (power b (number n)) : Except Error Expr) = .ok r) :
    (n.toNat + (sum constant terms).operands.length - 1).choose
        ((sum constant terms).operands.length - 1) ≤ 4096 ∧
      (Collectible (sum constant terms).operands n.toNat → (summandsOf r).length ≤
        (n.toNat + (sum constant terms).operands.length - 1).choose
          ((sum constant terms).operands.length - 1)) := by
  have canonical_base : (sum constant terms).Canonical := by
    cases canonical with
    | power form base_canonical _ => exact canonical_expand base base_canonical
  have some_summand : 0 < (summandsOf (sum constant terms)).length := by
    refine List.length_pos_of_ne_nil fun none => ?_
    have stored := sumOf_summandsOf canonical_base
    rw [none, sumOf_nil] at stored
    cases stored
  obtain ⟨b', x, base', exponent, outcome⟩ := expand_power_cases found
  cases base.symm.trans base'
  have same : (expand (number n) : Except Error Expr) = .ok (number n) :=
    expand_eq_self (by simp) (by simp) (by simp)
  cases same.symm.trans exponent
  obtain ⟨_, _, m, _, integer, _, power⟩ | ⟨never, _⟩ := outcome
  · obtain rfl : n = m := by exact_mod_cast number.inj integer
    unfold expandPower at power
    split at power
    · cases power
    rename_i small
    rw [observe_bind] at power
    rw [expansionTerms_eq, ← Nat.add_sub_assoc some_summand] at small
    refine ⟨Nat.le_of_not_lt small, fun collectible => ?_⟩
    have total : 1 + (n.toNat - 1) = n.toNat := by omega
    obtain ⟨canonical_r, multiples⟩ := multipleOfChosen_distributeTimes canonical_base
      canonical_base (fun l => multipleOfChosen_one canonical_base)
      (collectible.no_sum.mono total.le) power
    rw [total] at multiples
    exact length_summandsOf_le canonical_base collectible some_summand canonical_r multiples
  · exact absurd positive (never constant terms n rfl rfl)

/-- The sum `y + x**(1/2)`. -/
def symbolPlusRoot : Expr :=
  sum 0 [(symbol "y", 1), (power (symbol "x") (number (1 / 2)), 1)]

/-- The sum `y + (x + 1)**(1/2)`. -/
def symbolPlusRootOfSum : Expr :=
  sum 0 [(symbol "y", 1), (power (sum 1 [(symbol "x", 1)]) (number (1 / 2)), 1)]

/-- The sum `2**(1/2) + 2**y`. -/
def powersOfTwo : Expr :=
  sum 0 [(power (number 2) (number (1 / 2)), 1), (power (number 2) (symbol "y"), 1)]

theorem canonical_symbolPlusRoot : symbolPlusRoot.Canonical := by
  have root : (power (symbol "x") (number (1 / 2))).Canonical :=
    canonical_root (.symbol "x") (by cbv)
  exact canonical_sum_pair (.symbol "y") root trivial trivial (by cbv) one_ne_zero one_ne_zero

theorem canonical_symbolPlusRootOfSum : symbolPlusRootOfSum.Canonical := by
  have root : (power (sum 1 [(symbol "x", 1)]) (number (1 / 2))).Canonical :=
    canonical_root (canonical_successor "x") (by cbv)
  exact canonical_sum_pair (.symbol "y") root trivial trivial (by cbv) one_ne_zero one_ne_zero

theorem canonical_powersOfTwo : powersOfTwo.Canonical := by
  have root : (power (number 2) (number (1 / 2))).Canonical :=
    canonical_root (canonical_number 2) (by cbv)
  have exponential : (power (number 2) (symbol "y")).Canonical :=
    @canonical_powerOf (number 2) (symbol "y") _ (by cbv) (canonical_number 2) (.symbol "y")
  exact canonical_sum_pair root exponential trivial trivial (by cbv) one_ne_zero one_ne_zero

/-- The square of `y + x**(1/2)` has the three summands of `x + 2*x**(1/2)*y + y**2`. -/
theorem expand_power_bounded_root : (2 + 2 - 1).choose (2 - 1) ≤ 4096 ∧
    (summandsOf (sum 0 [(symbol "x", 1),
      (product 1 [(symbol "x", number (1 / 2)), (symbol "y", number 1)], 2),
      (power (symbol "y") (number 2), 1)])).length ≤ (2 + 2 - 1).choose (2 - 1) := by
  have square : (power symbolPlusRoot (number (2 : Int))).Canonical :=
    canonical_root canonical_symbolPlusRoot (by cbv)
  have collectible : Collectible symbolPlusRoot.operands 2 := by
    refine collectible_of_indeterminates (canonical_operands canonical_symbolPlusRoot) ?_
    intro b x carried
    have parts : symbolPlusRoot.operands.flatMap factorPart =
        [(symbol "y", number 1), (symbol "x", number (1 / 2))] := by cbv
    rw [parts] at carried
    obtain ⟨rfl, rfl⟩ | ⟨rfl, rfl⟩ : b = symbol "y" ∧ x = number 1 ∨
        b = symbol "x" ∧ x = number (1 / 2) := by
      simpa using carried
    · trivial
    · trivial
  have base : (expand symbolPlusRoot : Except Error Expr) = .ok symbolPlusRoot := by cbv
  obtain ⟨guard, bound⟩ := expand_power_bounded square (by decide) base (by cbv)
  exact ⟨guard, bound collectible⟩

/-- Where more summands come out: two roots of `x + 1` multiply to a sum, which has two of its own,
and products of three powers of two depend on the order. -/
theorem expand_power_exceeds :
    ((power symbolPlusRootOfSum (number 2)).Canonical ∧ symbolPlusRootOfSum.operands.length = 2 ∧
      (expand symbolPlusRootOfSum : Except Error Expr) = .ok symbolPlusRootOfSum ∧
      ∃ r, (expand (power symbolPlusRootOfSum (number 2)) : Except Error Expr) = .ok r ∧
        (2 + 2 - 1).choose (2 - 1) < (summandsOf r).length) ∧
    (power powersOfTwo (number 3)).Canonical ∧ powersOfTwo.operands.length = 2 ∧
      (expand powersOfTwo : Except Error Expr) = .ok powersOfTwo ∧
      ∃ r, (expand (power powersOfTwo (number 3)) : Except Error Expr) = .ok r ∧
        (3 + 2 - 1).choose (2 - 1) < (summandsOf r).length := by
  refine ⟨⟨canonical_root canonical_symbolPlusRootOfSum (by cbv), by cbv, by cbv,
    sum 1 [(symbol "x", 1),
      (product 1 [(symbol "y", number 1), (sum 1 [(symbol "x", 1)], number (1 / 2))], 2),
      (power (symbol "y") (number 2), 1)], by cbv, by cbv⟩,
    canonical_root canonical_powersOfTwo (by cbv), by cbv, by cbv,
    sum 0 [(power (number 2) (number (1 / 2)), 2), (power (number 2) (symbol "y"), 2),
      (power (number 2) (sum 1 [(symbol "y", 1)]), 2),
      (power (number 2) (sum (1 / 2) [(symbol "y", 2)]), 3),
      (power (number 2) (product 3 [(symbol "y", number 1)]), 1)], by cbv, by cbv⟩

end SymbolicAlgebra
