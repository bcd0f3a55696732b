import SymbolicAlgebra.Error

namespace SymbolicAlgebra

/-- A rational number is an integer exactly when its reduced denominator is one. -/
def isInteger (q : Rat) : Bool :=
  q.den == 1

def compareValues (p q : Rat) : Ordering :=
  if p < q then .lt else if p = q then .eq else .gt

/-- Every integer comes before every other number; numbers of one sort go by value. -/
def compareNumbers (p q : Rat) : Ordering :=
  match isInteger p, isInteger q with
  | true, false => .lt
  | false, true => .gt
  | _, _ => compareValues p q

/-- An integer in decimal, any other number as its reduced numerator and denominator. -/
def numberText (q : Rat) : String :=
  if isInteger q then toString q.num else toString q.num ++ "/" ++ toString q.den

/-- A number in the form in which it is stored. The form alone does not keep a fraction from being
an integer, or from not being in lowest terms. -/
inductive Numeral where
  | integer (value : Int)
  | fraction (numerator denominator : Int)
deriving DecidableEq, Repr

/-- Numerator and denominator without their common divisor. The sign goes to the numerator. -/
def lowestTerms (numerator denominator : Int) : Int × Int :=
  let divisor : Int := numerator.gcd denominator
  let above := numerator.tdiv divisor
  let below := denominator.tdiv divisor
  if below < 0 then (-above, -below) else (above, below)

/-- The lowest terms have a denominator above zero, no common divisor, and the same ratio. -/
theorem lowestTerms_spec (n : Int) {d : Int} (nonzero : d ≠ 0) :
    0 < (lowestTerms n d).2 ∧ (lowestTerms n d).1.gcd (lowestTerms n d).2 = 1 ∧
      (lowestTerms n d).1 * d = n * (lowestTerms n d).2 := by
  have positive : 0 < n.gcd d := Int.gcd_pos_of_ne_zero_right n nonzero
  obtain ⟨a, above⟩ := Int.gcd_dvd_left n d
  obtain ⟨b, below⟩ := Int.gcd_dvd_right n d
  have other : ((n.gcd d : Nat) : Int) ≠ 0 := by omega
  have coprime : a.gcd b = 1 := by
    have whole := Int.gcd_mul_left (n.gcd d : Nat) a b
    rw [← above, ← below, Int.natAbs_natCast] at whole
    exact Nat.eq_of_mul_eq_mul_left positive (whole.symm.trans (Nat.mul_one _).symm)
  have first : n.tdiv (n.gcd d : Nat) = a := by
    conv => lhs; lhs; rw [above]
    exact Int.mul_tdiv_cancel_left a other
  have second : d.tdiv (n.gcd d : Nat) = b := by
    conv => lhs; lhs; rw [below]
    exact Int.mul_tdiv_cancel_left b other
  have cross : a * d = n * b := by
    calc a * d = a * ((n.gcd d : Nat) * b) := congrArg (a * ·) below
      _ = (n.gcd d : Nat) * a * b := by rw [← Int.mul_assoc, Int.mul_comm a]
      _ = n * b := congrArg (· * b) above.symm
  have b_nonzero : b ≠ 0 := by
    rintro rfl
    exact nonzero (below.trans (Int.mul_zero _))
  simp only [lowestTerms, first, second]
  split
  · refine ⟨by omega, ?_, ?_⟩
    · rw [Int.gcd_neg, Int.neg_gcd, coprime]
    · rw [Int.neg_mul, Int.mul_neg, cross]
  · exact ⟨by omega, coprime, cross⟩

namespace Numeral

/-- The numeral of a number. Its numerator and denominator are in lowest terms already. -/
def ofNumber (q : Rat) : Numeral :=
  if isInteger q then integer q.num else fraction q.num q.den

/-- The numeral of `numerator / denominator`, which need not be given in lowest terms. -/
def ofRatio (numerator denominator : Int) : Except Error Numeral :=
  if denominator = 0 then .error .zeroDenominator
  else
    let (above, below) := lowestTerms numerator denominator
    if below = 1 then .ok (integer above) else .ok (fraction above below)

end Numeral

/-- The number `numerator / denominator`, which need not be given in lowest terms. -/
def ratio (numerator denominator : Int) : Except Error Rat :=
  if zero : denominator = 0 then .error .zeroDenominator
  else
    have terms := lowestTerms_spec numerator zero
    .ok {
      num := (lowestTerms numerator denominator).1
      den := (lowestTerms numerator denominator).2.toNat
      den_nz := by omega
      reduced := by
        have size : (lowestTerms numerator denominator).2.toNat =
            (lowestTerms numerator denominator).2.natAbs := by omega
        rw [Nat.Coprime, size]
        exact terms.2.1 }

def bitLength (n : Nat) : Nat :=
  if n = 0 then 0 else n.log2 + 1

/-- The most bits that an exact power may be expected to take. -/
def powerBitLimit : Nat :=
  16777216

/-- A bound on the bits of numerator and denominator of `q` to the power `n`. -/
def powerBits (q : Rat) (n : Int) : Nat :=
  max (bitLength q.num.natAbs) (bitLength q.den) * n.natAbs

/-- Zero to the power `q`, which has to be positive. -/
def zeroPower (q : Rat) : Except Error Rat :=
  if 0 < q then .ok 0 else .error .zeroToNonPositivePower

/-- The number of values that a machine word has. -/
def wordSize : Nat :=
  18446744073709551616

/-- A natural number that fits a machine word. -/
def word? (n : Nat) : Option Nat :=
  if n < wordSize then some n else none

/-- The exponent `n` without its sign, if a power of `q` with it can be taken: it has to fit a word,
and so has the bound on the bits of the power, which must not be past `powerBitLimit`. -/
def magnitude? (q : Rat) (n : Int) : Option Nat := do
  let magnitude ← word? n.natAbs
  let bits ← word? (max (bitLength q.num.natAbs) (bitLength q.den) * magnitude)
  if powerBitLimit < bits then none else some magnitude

/-- The exact value of `q` to the integer power `n`. The units 1 and -1 have every power; of any
other number but zero a power past `powerBitLimit` is refused unseen. -/
def exactPower (q : Rat) (n : Int) : Except Error Rat :=
  if q = 0 then zeroPower n
  else if q = 1 then .ok 1
  else if q = -1 then .ok (if n % 2 = 0 then 1 else -1)
  else match magnitude? q n with
    | none => .error (.exponentTooLarge n)
    | some magnitude => .ok (if n < 0 then (q ^ magnitude)⁻¹ else q ^ magnitude)

theorem bitLength_pos {n : Nat} (positive : 0 < n) : 0 < bitLength n := by
  rw [bitLength, if_neg (Nat.ne_of_gt positive)]
  exact Nat.succ_pos _

/-- Words cut nothing off: an exponent or a bound that fits no word is past the limit in any case. -/
theorem magnitude?_eq (q : Rat) (n : Int) :
    magnitude? q n = if powerBitLimit < powerBits q n then none else some n.natAbs := by
  have some_bits : 0 < max (bitLength q.num.natAbs) (bitLength q.den) :=
    Nat.lt_of_lt_of_le (bitLength_pos q.den_pos) (Nat.le_max_right ..)
  have magnitude_le : n.natAbs ≤ powerBits q n := Nat.le_mul_of_pos_left _ some_bits
  have limit_lt : powerBitLimit < wordSize := by decide
  unfold magnitude?
  by_cases wide : n.natAbs < wordSize
  · rw [word?, if_pos wide]
    change (word? (powerBits q n) >>= _) = _
    by_cases total : powerBits q n < wordSize
    · rw [word?, if_pos total]
      rfl
    · rw [word?, if_neg total, if_pos (by omega)]
      rfl
  · rw [word?, if_neg wide, if_pos (by omega)]
    rfl

theorem exactPower_eq (q : Rat) (n : Int) :
    exactPower q n =
      if q = 0 then zeroPower n
      else if q = 1 then .ok 1
      else if q = -1 then .ok (if n % 2 = 0 then 1 else -1)
      else if powerBitLimit < powerBits q n then .error (.exponentTooLarge n)
      else .ok (Rat.zpow q n) := by
  have signed : (if n < 0 then (q ^ n.natAbs)⁻¹ else q ^ n.natAbs) = Rat.zpow q n := by
    cases n with
    | ofNat m => exact if_neg (Int.not_lt.mpr (Int.natCast_nonneg m))
    | negSucc m => exact if_pos (Int.negSucc_lt_zero m)
  unfold exactPower
  rw [magnitude?_eq, ← signed]
  by_cases past : powerBitLimit < powerBits q n <;> simp only [past, if_true, if_false]

end SymbolicAlgebra
