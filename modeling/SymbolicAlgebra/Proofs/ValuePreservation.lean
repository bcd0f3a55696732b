import Mathlib.Analysis.SpecialFunctions.Pow.Complex
import Mathlib.Tactic.Ring
import SymbolicAlgebra.Node
import SymbolicAlgebra.Proofs.Bases
import SymbolicAlgebra.Proofs.Meaning

namespace SymbolicAlgebra

open SymbolicAlgebra.Expr

/-- The laws of powers: those of integer exponents hold at bases other than zero, of all other
exponents only the sum law does. -/
structure PowerLaws {K : Type*} [Field K] (pow : K → K → K) : Prop where
  exponent_zero : ∀ b, pow b 0 = 1
  exponent_one : ∀ b, pow b 1 = b
  base_one : ∀ e, pow 1 e = 1
  rational : ∀ (q : Rat) (n : Int), q ≠ 0 → pow q n = (q : K) ^ n
  add : ∀ b e f, b ≠ 0 → pow b (e + f) = pow b e * pow b f
  nested : ∀ b e (n : Int), b ≠ 0 → pow (pow b e) n = pow b (e * n)
  product : ∀ b c (n : Int), b ≠ 0 → c ≠ 0 → pow (b * c) n = pow b n * pow c n

/-- Principal powers of complex numbers obey the laws. -/
theorem powerLaws_complex : PowerLaws fun b e : ℂ => b ^ e where
  exponent_zero := Complex.cpow_zero
  exponent_one := Complex.cpow_one
  base_one := Complex.one_cpow
  rational q n _ := Complex.cpow_intCast q n
  add b e f nonzero := Complex.cpow_add e f nonzero
  nested b e n _ := by rw [Complex.cpow_intCast, Complex.cpow_mul_int]
  product b c n _ _ := by
    rw [Complex.cpow_intCast, Complex.cpow_intCast, Complex.cpow_intCast, mul_zpow]

theorem PowerLaws.ne_zero {K : Type*} [Field K] {pow : K → K → K} (laws : PowerLaws pow) {b : K}
    (nonzero : b ≠ 0) (e : K) : pow b e ≠ 0 := by
  intro zero
  have inverse := laws.add b e (-e) nonzero
  rw [add_neg_cancel, laws.exponent_zero, zero, zero_mul] at inverse
  exact one_ne_zero inverse

/-- The base of a power or of a factor, at any depth. -/
inductive Expr.HasBase : Expr → Expr → Prop where
  | power {b e} : HasBase (power b e) b
  | factor {coefficient factors b e} (stored : (b, e) ∈ factors) :
      HasBase (product coefficient factors) b
  | within {e part b} (stored : part ∈ e.parts) (deeper : HasBase part b) : HasBase e b

/-- The bases that are raised when the expression is raised to an integer. -/
inductive Expr.RaisesBase : Expr → Expr → Prop where
  | power {b e} : RaisesBase (power b e) b
  | nested {b e c} (inner : RaisesBase b c) : RaisesBase (power b e) c
  | factor {coefficient factors b e} (stored : (b, e) ∈ factors) :
      RaisesBase (product coefficient factors) b
  | distributed {coefficient factors b e c} (stored : (b, e) ∈ factors) (inner : RaisesBase b c) :
      RaisesBase (product coefficient factors) c

theorem Expr.RaisesBase.hasBase {e b : Expr} (raises : e.RaisesBase b) : e.HasBase b := by
  induction raises with
  | power => exact .power
  | nested inner ih => exact .within (by simp [parts]) ih
  | factor stored => exact .factor stored
  | @distributed coefficient factors b e c stored inner ih =>
    refine .within (List.mem_append_left _ (List.mem_flatMap.mpr ⟨(b, e), stored, ?_⟩)) ih
    exact List.mem_cons_self ..

namespace Interpretation

variable {K : Type*} [Field K] (I : Interpretation K)

/-- The laws of powers apply to the expression as a base, and to the bases it is raised through. -/
structure SafeBase (b : Expr) : Prop where
  nonzero : I.value b ≠ 0
  inner : ∀ c, b.RaisesBase c → I.value c ≠ 0

/-- No base at any depth is zero. -/
def NonzeroBases (e : Expr) : Prop :=
  ∀ b, e.HasBase b → I.value b ≠ 0

def SafeFactors (factors : List Factor) : Prop :=
  ∀ b e, (b, e) ∈ factors → I.SafeBase b

variable {I}

theorem SafeBase.factorPart {b : Expr} (safe : I.SafeBase b) : I.SafeFactors b.factorPart := by
  intro c e member
  cases b with
  | number q => cases member
  | product coefficient factors =>
    exact ⟨safe.inner c (.factor member), fun d inner => safe.inner d (.distributed member inner)⟩
  | power base x =>
    cases List.mem_singleton.mp member
    exact ⟨safe.inner _ .power, fun d inner => safe.inner d (.nested inner)⟩
  | _ =>
    cases List.mem_singleton.mp member
    exact safe

theorem safeBase_of_nonzeroBases {b : Expr} (bases : I.NonzeroBases b) (nonzero : I.value b ≠ 0) :
    I.SafeBase b :=
  ⟨nonzero, fun c inner => bases c inner.hasBase⟩

theorem value_scale_ne_zero [CharZero K] (pow_one : ∀ b, I.pow b 1 = b) {e : Expr} {q : Rat}
    (nonzero : q ≠ 0) (value : I.value e ≠ 0) : I.value (e.scale q) ≠ 0 := by
  rw [I.value_scale pow_one]
  exact mul_ne_zero (Rat.cast_ne_zero.mpr nonzero) value

theorem inherited_safeBase [CharZero K] (pow_one : ∀ b, I.pow b 1 = b) : Inherited I.SafeBase where
  inner b safe := safe.factorPart
  multiple c terms q nonzero safe := by
    have scaled := value_scale_ne_zero pow_one nonzero safe.nonzero
    rw [scale_sum nonzero] at scaled ⊢
    -- A sum is raised as a whole, so that no base inside of it matters.
    refine ⟨scaled, fun d inner => ?_⟩
    cases inner

/-- Merging factors with equal bases keeps the value of the product. -/
theorem valueOfFactors_collectFactors [CharZero K] (laws : PowerLaws I.pow) {operands : List Expr}
    (canonical : ∀ e ∈ operands, e.Canonical)
    (safe : EveryBase I.SafeBase (operands.flatMap Expr.factorPart)) :
    I.valueOfFactors (collectFactors operands) =
      I.valueOfFactors (operands.flatMap Expr.factorPart) := by
  rw [valueOfFactors_eq, valueOfFactors_eq]
  refine (EveryBase.mergeable I.SafeBase).prod_foldr ?_ (canonical_factorParts canonical)
    (EveryBase.iff_forall.mp safe)
  intro b e f base _
  have total : I.value (sumOf [e, f]) = I.value e + I.value f := by
    rw [I.value_sumOf laws.exponent_one, List.map_cons, List.map_singleton, List.sum_pair]
  rw [total, laws.add _ _ _ base.nonzero]

theorem valueOfFactors_ne_zero (laws : PowerLaws I.pow) {factors : List Factor}
    (safe : EveryBase I.SafeBase factors) : I.valueOfFactors factors ≠ 0 := by
  induction factors with
  | nil =>
    rw [valueOfFactors_nil]
    exact one_ne_zero
  | cons head rest ih =>
    obtain ⟨b, e⟩ := head
    rw [valueOfFactors_cons]
    exact mul_ne_zero (laws.ne_zero safe.head.nonzero _) (ih safe.tail)

theorem exactPower_eq_zpow {q r : Rat} {n : Int} (nonzero : q ≠ 0)
    (found : exactPower q n = .ok r) : r = q ^ n := by
  rw [exactPower_eq, if_neg nonzero] at found
  split at found
  · rename_i one
    cases found
    rw [one, one_zpow]
  · split at found
    · rename_i minus
      cases found
      rw [minus]
      split
      · rename_i even
        rw [(Int.even_iff.mpr even).neg_one_zpow]
      · rename_i odd
        rw [(Int.not_even_iff_odd.mp (mt Int.even_iff.mp odd)).neg_one_zpow]
    · split at found
      · cases found
      · cases found
        rfl

/-- An exponent that is multiplied by an integer has the multiplied value. -/
theorem value_exponent [CharZero K] (pow_one : ∀ b, I.pow b 1 = b) {f k : Expr} {n : Int}
    (exponent : ProductRun [f, number n] k) (canonical : f.Canonical) :
    I.value k = I.value f * n := by
  have scaled := productOf_number_right (n : Rat) canonical
  rw [exponent.productOf_eq_ok] at scaled
  rw [Except.ok.inj scaled, I.value_scale pow_one, Rat.cast_intCast, mul_comm]

variable (I)

/-- What became of factors multiplies to the same value, and can be multiplied further. -/
structure Settles (factors : List Factor) (settled : Settled) : Prop where
  value : I.valueOfFactors factors =
    settled.coefficient * (I.valueOfFactors settled.kept * (settled.rewritten.map I.value).prod)
  rewritten : I.SafeFactors (settled.rewritten.flatMap factorPart)

variable {I}

theorem prod_value_of_settles [CharZero K] (laws : PowerLaws I.pow) {operands : List Expr}
    {settled : Settled} (canonical : ∀ e ∈ operands, e.Canonical)
    (safe : EveryBase I.SafeBase (operands.flatMap factorPart))
    (settles : I.Settles (collectFactors operands) settled) :
    (operands.map I.value).prod = (collectCoefficient operands * settled.coefficient : Rat) *
      (I.valueOfFactors settled.kept * (settled.rewritten.map I.value).prod) := by
  rw [I.prod_value laws.exponent_one, ← valueOfFactors_collectFactors laws canonical safe,
    settles.value, Rat.cast_mul, mul_assoc]

theorem Settles.add [CharZero K] {b e r : Expr} {factors : List Factor} {settled : Settled}
    (settles : I.Settles factors settled) (value : I.value r = I.pow (I.value b) (I.value e))
    (safe : EveryBase I.SafeBase r.factorPart) :
    I.Settles ((b, e) :: factors) (settled.add (b, e) r) := by
  rcases Settled.add_cases (Eq.refl (settled.add (b, e) r)) with ⟨q, rfl, added⟩ |
    ⟨_, _, _, added⟩ | ⟨_, added⟩
  · rw [added]
    refine ⟨?_, settles.rewritten⟩
    rw [valueOfFactors_cons, settles.value, ← value, value_number, Rat.cast_mul, mul_assoc]
  · rw [added]
    refine ⟨?_, settles.rewritten⟩
    rw [valueOfFactors_cons, settles.value, valueOfFactors_cons]
    ring
  · rw [added]
    refine ⟨?_, safe.append settles.rewritten⟩
    rw [valueOfFactors_cons, settles.value, ← value, List.map_cons, List.prod_cons]
    ring

end Interpretation

section Runs

variable {K : Type*} [Field K] [CharZero K] {I : Interpretation K} (laws : PowerLaws I.pow)

include laws

mutual

theorem ProductRun.value_eq : ∀ {operands r}, ProductRun operands r →
    (∀ e ∈ operands, e.Canonical) → EveryBase I.SafeBase (operands.flatMap factorPart) →
    I.value r = (operands.map I.value).prod
  | operands, _, .zero vanishes, canonical, safe => by
    rw [I.prod_value laws.exponent_one, vanishes, I.value_number, Rat.cast_zero, zero_mul]
  | operands, _, .vanished settles vanishes, canonical, safe => by
    have safe_factors := safe.collectFactors canonical
    have settled := settles.value (collected_collectFactors canonical) safe_factors
    rw [Interpretation.prod_value_of_settles laws canonical safe settled, vanishes, I.value_number,
      Rat.cast_zero, zero_mul]
  | operands, _, .assembled settles nonzero done, canonical, safe => by
    have safe_factors := safe.collectFactors canonical
    have settled := settles.value (collected_collectFactors canonical) safe_factors
    rw [Interpretation.prod_value_of_settles laws canonical safe settled, done,
      I.value_assembleProduct laws.exponent_one, List.map_nil, List.prod_nil, mul_one]
  | operands, _, .again settles nonzero rewritten rest, canonical, safe => by
    have collected := collected_collectFactors canonical
    have safe_factors := safe.collectFactors canonical
    have settled := settles.value collected safe_factors
    have form := settles.canonical collected
    have safe_kept := safe_factors.subset form.sublist.subset
    have value := rest.value_eq (form.again collected)
      (.again settled.rewritten safe_kept form.kept _)
    rw [value, Interpretation.prod_value_of_settles laws canonical safe settled, List.map_append,
      List.map_append, List.prod_append, List.prod_append, List.map_singleton, List.prod_singleton,
      I.prod_value_partsOf laws.exponent_one, I.value_number]
    ring

theorem SettleRun.value : ∀ {factors settled}, SettleRun factors settled → Collected factors →
    EveryBase I.SafeBase factors → I.Settles factors settled
  | _, _, .nil, _, _ => by
    refine ⟨?_, EveryBase.nil⟩
    rw [I.valueOfFactors_nil]
    simp
  | _, _, .dropped tail, collected, safe => by
    have settled := tail.value collected.tail safe.tail
    refine ⟨?_, settled.rewritten⟩
    rw [I.valueOfFactors_cons, I.value_number, Rat.cast_zero, laws.exponent_zero, one_mul,
      settled.value]
  | _, _, .raised exponent raises tail, collected, safe => by
    have base := collected.bases_canonical _ _ (List.mem_cons_self ..)
    have exponent := collected.exponents_canonical _ _ (List.mem_cons_self ..)
    have settled := tail.value collected.tail safe.tail
    have inherited := Interpretation.inherited_safeBase laws.exponent_one
    exact settled.add (raises.value_eq base exponent safe.head)
      (raises.everyBase inherited base exponent safe.head)

theorem PowerRun.value_eq : ∀ {b e r}, PowerRun b e r → b.Canonical → e.Canonical →
    I.SafeBase b → I.value r = I.pow (I.value b) (I.value e)
  | _, _, _, .zeroBase _, _, _, safe => by
    refine absurd ?_ safe.nonzero
    rw [I.value_number, Rat.cast_zero]
  | _, _, _, .zeroExponent _, _, _, _ => by
    rw [I.value_number, I.value_number, Rat.cast_zero, Rat.cast_one, laws.exponent_zero]
  | _, _, _, .oneExponent _, _, _, safe => by
    rw [I.value_number, Rat.cast_one, laws.exponent_one]
  | _, _, _, .oneBase _ _, _, _, _ => by
    rw [I.value_number, Rat.cast_one, laws.base_one]
  | _, _, _, .exact base_zero _ _ _ found, _, _, _ => by
    rw [I.value_number, I.value_number, I.value_number, Rat.cast_intCast,
      laws.rational _ _ base_zero, Interpretation.exactPower_eq_zpow base_zero found,
      Rat.cast_zpow]
  | _, _, _, .nested _ _ exponent inner, base, integer, safe => by
    cases base with
    | power form base inner_exponent =>
      have canonical := exponent.canonical (canonical_pair inner_exponent integer)
      have safe_inner := safe.factorPart _ _ (List.mem_singleton_self _)
      have total := Interpretation.value_exponent laws.exponent_one exponent inner_exponent
      rw [inner.value_eq base canonical safe_inner, total, I.value_power, I.value_number,
        Rat.cast_intCast, laws.nested _ _ _ safe_inner.nonzero]
  | _, _, _, @PowerRun.distributed coefficient factors p rs r n _ _ number_power powers whole, base,
      integer, safe => by
    obtain ⟨nonzero, _, kept⟩ := canonical_product_iff.mp base
    have canonical := powers.canonical kept.bases_canonical kept.exponents_canonical
    have safe_factors : EveryBase I.SafeBase factors := safe.factorPart
    have inherited := Interpretation.inherited_safeBase laws.exponent_one
    have value := powers.value_eq kept.bases_canonical kept.exponents_canonical safe_factors
    have product := whole.value_eq (List.forall_mem_cons.mpr ⟨canonical_number _, canonical⟩)
      (powers.everyBase inherited kept.bases_canonical kept.exponents_canonical safe_factors)
    have cast_nonzero : (coefficient : K) ≠ 0 := Rat.cast_ne_zero.mpr nonzero
    have factors_nonzero := Interpretation.valueOfFactors_ne_zero laws safe_factors
    have number_value : I.value (number p) = I.pow coefficient n := by
      rw [I.value_number, Interpretation.exactPower_eq_zpow nonzero number_power, Rat.cast_zpow,
        laws.rational _ _ nonzero]
    rw [product, List.map_cons, List.prod_cons, value, number_value, I.value_product,
      I.value_number, Rat.cast_intCast, laws.product _ _ _ cast_nonzero factors_nonzero]
  | _, _, _, .kept form, base, exponent, safe => I.value_power _ _

theorem PowersRun.value_eq : ∀ {factors n rs}, PowersRun factors n rs →
    (∀ b e, (b, e) ∈ factors → b.Canonical) → (∀ b e, (b, e) ∈ factors → e.Canonical) →
    EveryBase I.SafeBase factors → (rs.map I.value).prod = I.pow (I.valueOfFactors factors) n
  | _, _, _, .nil, _, _, _ => by
    rw [I.valueOfFactors_nil, laws.base_one]
    rfl
  | _, _, _, .cons exponent raises tail, bases, exponents, safe => by
    have base := bases _ _ (List.mem_cons_self ..)
    have inner := exponents _ _ (List.mem_cons_self ..)
    have canonical := exponent.canonical (canonical_pair inner (canonical_number _))
    have value := raises.value_eq base canonical safe.head
    have values := tail.value_eq
      (fun b e member => bases b e (List.mem_cons_of_mem _ member))
      (fun b e member => exponents b e (List.mem_cons_of_mem _ member)) safe.tail
    have total := Interpretation.value_exponent laws.exponent_one exponent inner
    rw [List.map_cons, List.prod_cons, value, values, total, I.valueOfFactors_cons,
      laws.product _ _ _ (laws.ne_zero safe.head.nonzero _)
        (Interpretation.valueOfFactors_ne_zero laws safe.tail),
      laws.nested _ _ _ safe.head.nonzero]

end

/-- A product has the value that its operands multiply to. The second part keeps the laws of powers
applicable when the product is multiplied or raised again. -/
theorem ProductRun.value {operands : List Expr} {r : Expr} (run : ProductRun operands r)
    (canonical : ∀ e ∈ operands, e.Canonical)
    (safe : I.SafeFactors (operands.flatMap factorPart)) :
    I.value r = (operands.map I.value).prod ∧ I.SafeFactors r.factorPart :=
  ⟨run.value_eq laws canonical safe,
    run.everyBase (Interpretation.inherited_safeBase laws.exponent_one) canonical safe⟩

/-- A power has the value that the law of powers gives to its base and exponent. -/
theorem PowerRun.value {b e r : Expr} (run : PowerRun b e r) (base : b.Canonical)
    (exponent : e.Canonical) (safe : I.SafeBase b) :
    I.value r = I.pow (I.value b) (I.value e) ∧ I.SafeFactors r.factorPart :=
  ⟨run.value_eq laws base exponent safe,
    run.everyBase (Interpretation.inherited_safeBase laws.exponent_one) base exponent safe⟩

end Runs

/-- Simplification preserves value: a sum has the value of its operands added up, a product that of
its operands multiplied, a power that of its base raised to its exponent, whenever no base is zero
that the laws of powers are applied to. -/
theorem Interpretation.value_preserved {K : Type*} [Field K] [CharZero K] {I : Interpretation K}
    (laws : PowerLaws I.pow) :
    (∀ summands, I.value (sumOf summands) = (summands.map I.value).sum) ∧
    (∀ operands r, (∀ e ∈ operands, e.Canonical ∧ I.NonzeroBases e ∧
        ((∀ q, e ≠ number q) → I.value e ≠ 0)) →
      (productOf operands : Except Error Expr) = .ok r → I.value r = (operands.map I.value).prod) ∧
    ∀ b e r, b.Canonical → e.Canonical → I.NonzeroBases b → I.value b ≠ 0 →
      (powerOf b e : Except Error Expr) = .ok r → I.value r = I.pow (I.value b) (I.value e) := by
  refine ⟨I.value_sumOf laws.exponent_one, fun operands r each found => ?_,
    fun b e r base exponent bases nonzero found => ?_⟩
  · have safe : I.SafeFactors (operands.flatMap factorPart) := by
      intro b x member
      obtain ⟨e, inside, part⟩ := List.mem_flatMap.mp member
      obtain ⟨_, bases, nonzero⟩ := each e inside
      have not_number : ∀ q, e ≠ number q := by
        rintro q rfl
        cases part
      exact (safeBase_of_nonzeroBases bases (nonzero not_number)).factorPart b x part
    exact ((productOf_eq_ok_iff.mp found).value laws (fun e inside => (each e inside).1) safe).1
  · have safe := safeBase_of_nonzeroBases bases nonzero
    exact ((powerOf_eq_ok_iff.mp found).value laws base exponent safe).1

/-- Complex numbers with their principal powers, where every symbol stands for two. -/
noncomputable def complexNumbers : Interpretation ℂ where
  pow b e := b ^ e
  symbol _ := 2
  sine := Complex.sin
  cosine := Complex.cos
  function _ a := a
  derivative _ _ := 0

/-- The product of `x` and `x**n`, and the square of `x**n`, over the complex numbers. -/
theorem value_preserved_complex :
    (∃ r, (productOf [symbol "x", power (symbol "x") (symbol "n")] : Except Error Expr) = .ok r ∧
      complexNumbers.value r =
        ([symbol "x", power (symbol "x") (symbol "n")].map complexNumbers.value).prod) ∧
    ∃ r, (powerOf (power (symbol "x") (symbol "n")) (number 2) : Except Error Expr) = .ok r ∧
      complexNumbers.value r = complexNumbers.pow
        (complexNumbers.value (power (symbol "x") (symbol "n")))
        (complexNumbers.value (number 2)) := by
  have multiplied : (productOf [symbol "x", power (symbol "x") (symbol "n")] : Except Error Expr) =
      .ok (power (symbol "x") (sum 1 [(symbol "n", 1)])) := by cbv
  have squared : (powerOf (power (symbol "x") (symbol "n")) (number 2) : Except Error Expr) =
      .ok (power (symbol "x") (product 2 [(symbol "n", number 1)])) := by cbv
  have two (name : String) : complexNumbers.value (symbol name) ≠ 0 := by
    rw [Interpretation.value]
    exact two_ne_zero
  have bare (name : String) (b : Expr) : ¬ (symbol name).HasBase b := by
    rintro (_ | _ | ⟨stored, _⟩)
    cases stored
  have bases : complexNumbers.NonzeroBases (power (symbol "x") (symbol "n")) := by
    rintro b (_ | _ | ⟨stored, deeper⟩)
    · exact two "x"
    · rcases List.mem_cons.mp stored with rfl | stored
      · exact absurd deeper (bare "x" b)
      · cases List.mem_singleton.mp stored
        exact absurd deeper (bare "n" b)
  have canonical : (power (symbol "x") (symbol "n")).Canonical :=
    .power (canonicalPower_of_symbolic rfl (by simp)) (.symbol "x") (.symbol "n")
  have nonzero : complexNumbers.value (power (symbol "x") (symbol "n")) ≠ 0 := by
    rw [Interpretation.value_power]
    exact powerLaws_complex.ne_zero (two "x") _
  obtain ⟨_, products, powers⟩ :=
    @Interpretation.value_preserved ℂ _ _ complexNumbers powerLaws_complex
  refine ⟨⟨_, multiplied, products _ _ ?_ multiplied⟩,
    ⟨_, squared, powers _ _ _ canonical (canonical_number 2) bases nonzero squared⟩⟩
  intro e inside
  rcases List.mem_cons.mp inside with rfl | inside
  · exact ⟨.symbol "x", fun b base => absurd base (bare "x" b), fun _ => two "x"⟩
  · cases List.mem_singleton.mp inside
    exact ⟨canonical, bases, fun _ => nonzero⟩

end SymbolicAlgebra
