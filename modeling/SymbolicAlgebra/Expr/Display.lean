import SymbolicAlgebra.Sum

namespace SymbolicAlgebra

/-- How tightly the outermost operator of an expression binds when it is written out. -/
def Expr.precedence : Expr → Nat
  | .number q => if !isInteger q then 2 else if q.num < 0 then 1 else 4
  | .sum _ _ => 1
  | .product _ _ => 2
  | .power _ _ => 3
  | _ => 4

/-- Text in parentheses if it binds more loosely than its surroundings. -/
def parenthesized (precedence surroundings : Nat) (text : String) : String :=
  if precedence < surroundings then "(" ++ text ++ ")" else text

/-- A summand after the first: a leading minus sign becomes the sign of the sum. -/
def laterSummand (text : String) : String :=
  match text.toList with
  | '-' :: rest => " - " ++ String.ofList rest
  | _ => " + " ++ text

def joinSummands : List String → String
  | [] => ""
  | first :: rest => rest.foldl (fun text summand => text ++ laterSummand summand) first

/-- A coefficient in front of the text of the factors. -/
def coefficientText (q : Rat) (factors : String) : String :=
  if q = 1 then factors
  else if q = -1 then "-" ++ factors
  else numberText q ++ "*" ++ factors

/-- The text of `base**exponent`, with parentheses around whatever is not atomic. -/
def powerText (base exponent : Expr) (baseText exponentText : String) : String :=
  parenthesized base.precedence 4 baseText ++ "**" ++
    parenthesized exponent.precedence 4 exponentText

def nodeText (name : String) (parts : List String) : String :=
  name ++ "[" ++ String.intercalate ", " parts ++ "]"

namespace Expr

/-- Infix notation, with `**` for powers. A bare factor of a product has parentheses only when it
is a sum. -/
def inputForm (e : Expr) : String :=
  match e with
  | number q => numberText q
  | symbol name => name
  | sum constant terms =>
    joinSummands ((sum constant terms).operands.attach.map fun ⟨a, _⟩ => a.inputForm)
  | product coefficient factors =>
    coefficientText coefficient (String.intercalate "*" (factors.attach.map fun ⟨(b, e), _⟩ =>
      if e.isOne then parenthesized b.precedence 2 b.inputForm
      else powerText b e b.inputForm e.inputForm))
  | power b e => powerText b e b.inputForm e.inputForm
  | sin a => "sin(" ++ a.inputForm ++ ")"
  | cos a => "cos(" ++ a.inputForm ++ ")"
  | apply name a => name ++ "(" ++ a.inputForm ++ ")"
  | derivative a names => "D[" ++ String.intercalate ", " names ++ "](" ++ a.inputForm ++ ")"
termination_by e.size
decreasing_by
  · exact size_operand_lt ‹_›
  iterate 3
    have inside := size_factor_lt ‹_›
    simp only [size]
    omega
  all_goals
    simp only [size]
    omega

/-- The structure of an expression: every node is a name with its operands in brackets. -/
def fullForm (e : Expr) : String :=
  match e with
  | number q => numberText q
  | symbol name => name
  | sum constant terms =>
    nodeText "Add" ((sum constant terms).operands.attach.map fun ⟨a, _⟩ => a.fullForm)
  | product coefficient factors =>
    nodeText "Mul" ((product coefficient factors).operands.attach.map fun ⟨a, _⟩ => a.fullForm)
  | power b e => nodeText "Pow" [b.fullForm, e.fullForm]
  | sin a => nodeText "Sin" [a.fullForm]
  | cos a => nodeText "Cos" [a.fullForm]
  | apply name a => nodeText name [a.fullForm]
  | derivative a names => nodeText "Derivative" (a.fullForm :: names)
termination_by e.size
decreasing_by
  iterate 2 exact size_operand_lt ‹_›
  all_goals
    simp only [size]
    omega

end Expr

end SymbolicAlgebra
