import SymbolicAlgebra.Construction
import SymbolicAlgebra.Text.IntegerLiteral

namespace SymbolicAlgebra

/-- Named slots with what they hold. A slot comes into being, empty, when it is first addressed. -/
abbrev Slots := List (String × Option Expr)

namespace Slots

/-- The expression in a slot. A slot that is not there holds none. -/
def get? (slots : Slots) (name : String) : Option Expr :=
  (slots.lookup name).join

def remove (slots : Slots) (name : String) : Slots :=
  List.filter (fun slot => slot.1 ≠ name) slots

def put (slots : Slots) (name : String) (content : Option Expr) : Slots :=
  (name, content) :: slots.remove name

/-- Makes sure that a slot is there. -/
def address (slots : Slots) (name : String) : Slots :=
  slots.put name (slots.get? name)

end Slots

/-- The content of a slot that has to hold an expression. -/
def heldExpr : Option Expr → Except Error Expr
  | some e => .ok e
  | none => .error .emptySlot

def Slots.read (slots : Slots) (name : String) : Except Error Expr :=
  heldExpr (slots.get? name)

/-- What a slot can be set to without regard to other slots. Integers may come in machine words or
of any size, and so may the two of a ratio, which need not be in lowest terms. -/
inductive Constant where
  | expression (value : Expr)
  | symbol (name : String)
  | integer (value : Int)
  | literal (text : String)
  | ratio (numerator denominator : Int)

def Constant.result : Constant → Except Error Expr
  | expression e => .ok e
  | symbol name => .ok (.symbol name)
  | integer n => .ok (.number n)
  | literal text => do return .number (← readInteger text)
  | ratio n d => do return .number (← SymbolicAlgebra.ratio n d)

inductive UnaryOperation where
  | copy
  | negate
  | absolute
  | expand

def UnaryOperation.apply : UnaryOperation → Expr → Except Error Expr
  | copy, a => .ok a
  | negate, a => .ok a.negate
  | absolute, a => .ok (SymbolicAlgebra.absolute a)
  | expand, a => SymbolicAlgebra.expand a

inductive BinaryOperation where
  | ratio
  | add
  | subtract
  | multiply
  | divide
  | power
  | differentiate

def BinaryOperation.apply : BinaryOperation → Expr → Expr → Except Error Expr
  | ratio, a, b => ratioOf a b
  | add, a, b => summed [a, b]
  | subtract, a, b => differenceOf a b
  | multiply, a, b => productOf [a, b]
  | divide, a, b => quotientOf a b
  | power, a, b => powerOf a b
  | differentiate, a, x => SymbolicAlgebra.differentiate a x

/-- An operation whose result goes into a slot. Its operands are names of slots. -/
inductive Operation where
  | constant (value : Constant)
  | unary (operation : UnaryOperation) (operand : String)
  | binary (operation : BinaryOperation) (left right : String)

/-- The expression that an operation gives for what its operands hold. -/
def Operation.result (slots : Slots) : Operation → Except Error Expr
  | constant c => c.result
  | unary f a => do f.apply (← slots.read a)
  | binary f a b => do f.apply (← slots.read a) (← slots.read b)

/-- A question about what a slot holds. -/
inductive Query where
  | expression
  | text
  | display
  | integer
  | integerWithin (low high : Int)
  | sorts

/-- The integer, if it fits a signed machine word. -/
def Query.signedWord : Query :=
  integerWithin (-9223372036854775808) 9223372036854775807

/-- The integer, if it fits an unsigned machine word. -/
def Query.unsignedWord : Query :=
  integerWithin 0 (wordSize - 1)

/-- What an instruction answers unless it is refused. -/
inductive Answer where
  | done
  | expression (value : Expr)
  | text (value : String)
  | integer (value : Option Int)
  | sorts (integer rational symbol : Bool)

/-- The answer of a slot with some content. Only its expression and the text of that are refused
if it is empty. -/
def Query.answer (content : Option Expr) : Query → Except Error Answer
  | expression => do return .expression (← heldExpr content)
  | text => do return .text (← heldExpr content).inputForm
  | display => .ok (.text (content.elim "<empty>" Expr.inputForm))
  | integer => .ok (.integer (content.bind Expr.integer?))
  | integerWithin low high =>
    .ok (.integer ((content.bind Expr.integer?).filter fun n => low ≤ n ∧ n ≤ high))
  | sorts =>
    let isOf (kind : Kind) : Bool := content.any fun e => e.kind = kind
    .ok (.sorts (isOf .integer) (isOf .rational) (isOf .symbol))

/-- A step of a program on slots. -/
inductive Instruction where
  | store (destination : String) (operation : Operation)
  | renew (destination : String)
  | release (destination : String)
  | inspect (destination : String) (query : Query)

/-- Fills a slot, if there is something to fill it with. -/
def Slots.fill (slots : Slots) (name : String) : Except Error Expr → Slots × Except Error Answer
  | .ok e => (slots.put name (some e), .ok .done)
  | .error cause => (slots, .error cause)

/-- The slots after an instruction, and what it answers. -/
def Slots.step (slots : Slots) : Instruction → Slots × Except Error Answer
  | .store destination operation =>
    (slots.address destination).fill destination (operation.result slots)
  | .renew destination => (slots.put destination none, .ok .done)
  | .release destination => (slots.remove destination, .ok .done)
  | .inspect destination query => (slots.address destination, query.answer (slots.get? destination))

/-- The slots after a program, whatever is refused in it. -/
def Slots.run (slots : Slots) (program : List Instruction) : Slots :=
  program.foldl (fun slots instruction => (slots.step instruction).1) slots

end SymbolicAlgebra
