import SymbolicAlgebra.Proofs.RaisedFactors
import SymbolicAlgebra.Proofs.ScaledProducts
import SymbolicAlgebra.Proofs.SharedBases

namespace SymbolicAlgebra

open SymbolicAlgebra.Expr

/-- What a factor comes to when its exponent is multiplied by an integer. -/
def raisedPart (n : Int) (factor : Factor) : Expr :=
  (powerOf factor.1 (factor.2.scale n) : Except Error Expr).toOption.getD (number 0)

theorem raisedPart_eq {n : Int} {b e r : Expr}
    (found : (powerOf b (e.scale n) : Except Error Expr) = .ok r) : raisedPart n (b, e) = r := by
  rw [raisedPart, found]
  rfl

theorem canonical_raisedParts {n : Int} {factors : List Factor}
    (canonical : ∀ b e, (b, e) ∈ factors → b.Canonical ∧ e.Canonical)
    (raised : ∀ b e, (b, e) ∈ factors →
      ∃ r, (powerOf b (e.scale n) : Except Error Expr) = .ok r) :
    ∀ r ∈ factors.map (raisedPart n), r.Canonical := by
  intro r member
  obtain ⟨⟨b, e⟩, stored, rfl⟩ := List.mem_map.mp member
  obtain ⟨r, power⟩ := raised b e stored
  obtain ⟨base, exponent⟩ := canonical b e stored
  rw [raisedPart_eq power]
  exact canonical_powerOf power base (exponent.scale n)

theorem powersOf_eq_mapM (n : Int) {factors : List Factor}
    (exponents : ∀ b e, (b, e) ∈ factors → e.Canonical) :
    (powersOf factors n : Except Error (List Expr)) =
      factors.mapM fun factor => powerOf factor.1 (factor.2.scale n) := by
  induction factors with
  | nil => exact powersOf_nil n
  | cons head rest ih =>
    obtain ⟨b, e⟩ := head
    rw [powersOf_cons, productOf_number_right n (exponents b e (List.mem_cons_self ..)),
      ih fun c f stored => exponents c f (List.mem_cons_of_mem _ stored), List.mapM_cons]
    rfl

theorem powersOf_eq_ok_iff {n : Int} {factors : List Factor} {rs : List Expr}
    (exponents : ∀ b e, (b, e) ∈ factors → e.Canonical) :
    (powersOf factors n : Except Error (List Expr)) = .ok rs ↔
      (∀ b e, (b, e) ∈ factors → ∃ r, (powerOf b (e.scale n) : Except Error Expr) = .ok r) ∧
        factors.map (raisedPart n) = rs := by
  rw [powersOf_eq_mapM n exponents, mapM_eq_ok_iff_map fun factor r found => raisedPart_eq found,
    Prod.forall]

theorem exponents_factorPart {e : Expr} (canonical : e.Canonical) :
    ∀ b x, (b, x) ∈ e.factorPart → x.Canonical :=
  fun b x stored => (canonical.factorPart.2 b x stored).2.2

/-- The power that is taken factor by factor, whatever becomes of the number before them. -/
def factorwisePower (n : Int) (e : Expr) : Except Error Expr := do
  productOf (number (e.coefficientPart ^ n) :: (← powersOf e.factorPart n))

theorem factorwisePower_eq_ok_iff {n : Int} {e r : Expr} (canonical : e.Canonical) :
    factorwisePower n e = .ok r ↔
      (∀ b x, (b, x) ∈ e.factorPart → ∃ s, (powerOf b (x.scale n) : Except Error Expr) = .ok s) ∧
        (productOf (number (e.coefficientPart ^ n) :: e.factorPart.map (raisedPart n)) :
          Except Error Expr) = .ok r := by
  unfold factorwisePower
  simp only [bind_eq_ok_iff, powersOf_eq_ok_iff (exponents_factorPart canonical)]
  constructor
  · rintro ⟨_, ⟨each, rfl⟩, found⟩
    exact ⟨each, found⟩
  · rintro ⟨each, found⟩
    exact ⟨_, ⟨each, rfl⟩, found⟩

theorem productOf_singleton {e : Expr} (canonical : e.Canonical) :
    (productOf [e] : Except Error Expr) = .ok e := by
  have whole := @productOf_eq_scale 1 e [e] canonical (mul_comm _ _) (List.flatMap_singleton ..)
  rwa [scale_one] at whole

theorem factorwisePower_number (n : Int) (q : Rat) :
    factorwisePower n (number q) = .ok (number (q ^ n)) :=
  (factorwisePower_eq_ok_iff (canonical_number q)).mpr
    ⟨fun _ _ stored => absurd stored List.not_mem_nil, productOf_singleton (canonical_number _)⟩

/-- All expressions but numbers and products have a single factor, and its power is all there is. -/
theorem factorwisePower_lone {n : Int} {e b x r : Expr} (canonical : e.Canonical)
    (coefficient : e.coefficientPart = 1) (part : e.factorPart = [(b, x)])
    (raised : (powerOf b (x.scale n) : Except Error Expr) = .ok r) (power : r.Canonical) :
    factorwisePower n e = .ok r := by
  refine (factorwisePower_eq_ok_iff canonical).mpr ⟨fun c f stored => ?_, ?_⟩
  · rw [part] at stored
    cases List.mem_singleton.mp stored
    exact ⟨r, raised⟩
  · have whole := productOf_number 1 power
    rw [scale_one] at whole
    rwa [coefficient, one_zpow, part, List.map_singleton, raisedPart_eq raised]

theorem factorwisePower_one {e : Expr} (canonical : e.Canonical) : factorwisePower 1 e = .ok e := by
  have factor : ∀ b x, (b, x) ∈ e.factorPart → CanonicalFactor b x := fun b x stored =>
    (canonical.factorPart.2 b x stored).1
  have parts := @powersOf_of_canonicalFactors 1 _ (exponents_factorPart canonical)
      fun b x stored => by
    rw [Int.cast_one, scale_one]
    exact factor b x stored
  rw [raisedFactors_one] at parts
  refine bind_eq_ok_iff.mpr ⟨_, parts, ?_⟩
  rw [zpow_one]
  by_cases zero : e.coefficientPart = 0
  · rw [zero, eq_zero_of_coefficientPart canonical zero]
    exact productOf_of_mem_zero (List.mem_cons_self ..)
  · rw [productOf_number_partsOf zero canonical.factorPart.1 factor, assembleProduct_self canonical]

/-- An integer power is the power taken factor by factor. -/
theorem factorwisePower_of_powerOf {n : Int} {e r : Expr} (canonical : e.Canonical) (nonzero : n ≠ 0)
    (found : (powerOf e (number n) : Except Error Expr) = .ok r) : factorwisePower n e = .ok r := by
  have power := canonical_powerOf found canonical (canonical_number _)
  by_cases one : n = 1
  · subst one
    rw [Int.cast_one, powerOf_one] at found
    cases found
    exact factorwisePower_one canonical
  have bare (coefficient : e.coefficientPart = 1) (part : e.factorPart = [(e, number 1)]) :
      factorwisePower n e = .ok r := by
    refine factorwisePower_lone canonical coefficient part ?_ power
    rwa [scale_number, mul_one]
  cases canonical with
  | number form =>
    rw [powerOf_numbers _ nonzero] at found
    obtain ⟨q, exact_power, rfl⟩ := map_eq_ok_iff.mp found
    rw [factorwisePower_number, integerPower_eq_ok exact_power]
  | @power c f form base exponent =>
    rw [powerOf_power nonzero one, productOf_number_right n exponent] at found
    exact factorwisePower_lone (.power form base exponent) rfl rfl found power
  | @product q factors form bases exponents =>
    rw [powerOf_product nonzero one] at found
    obtain ⟨p, power, found⟩ := bind_eq_ok_iff.mp found
    obtain rfl := exactPower_eq_ok power
    exact found
  | _ => exact bare rfl rfl

end SymbolicAlgebra
