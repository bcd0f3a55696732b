import SymbolicAlgebra.Error
import SymbolicAlgebra.Text.Blank

namespace SymbolicAlgebra

def digitValue? (c : Char) : Option Nat :=
  if '0' ≤ c ∧ c ≤ '9' then some (c.toNat - '0'.toNat) else none

/-- Decimal digits continuing the number `value`; underscores between and after them are skipped. -/
def readDigits (value : Nat) : List Char → Option Nat
  | [] => some value
  | '_' :: rest => readDigits value rest
  | c :: rest => (digitValue? c).bind fun d => readDigits (10 * value + d) rest

/-- An unsigned decimal number, which begins with a digit. -/
def readNatural : List Char → Option Nat
  | [] => none
  | '_' :: _ => none
  | text => readDigits 0 text

/-- A number after an optional plus sign. -/
def readUnsigned : List Char → Option Nat
  | '+' :: rest => readNatural rest
  | text => readNatural text

/-- A number after at most one sign. -/
def readSigned : List Char → Option Int
  | '-' :: '+' :: _ => none
  | '-' :: rest => (readUnsigned rest).map fun n => -(n : Int)
  | text => (readUnsigned text).map fun n => (n : Int)

/-- The integer that a base-10 literal denotes. Blanks around it do not count. -/
def readInteger (literal : String) : Except Error Int :=
  match readSigned (trimBlanks literal.toList) with
  | some n => .ok n
  | none => .error (.invalidInteger literal)

end SymbolicAlgebra
