import SymbolicAlgebra.Sum

namespace SymbolicAlgebra

namespace Expr

mutual

/-- Whether a symbol occurs in the expression. Variables of formal derivatives count. -/
def hasSymbol (x : String) : Expr → Bool
  | number _ => false
  | symbol name => name == x
  | sum _ terms => termsHaveSymbol x terms
  | product _ factors => factorsHaveSymbol x factors
  | power b e => hasSymbol x b || hasSymbol x e
  | sin a => hasSymbol x a
  | cos a => hasSymbol x a
  | apply _ a => hasSymbol x a
  | derivative a names => names.contains x || hasSymbol x a

def termsHaveSymbol (x : String) : List Multiple → Bool
  | [] => false
  | (t, _) :: rest => hasSymbol x t || termsHaveSymbol x rest

def factorsHaveSymbol (x : String) : List Factor → Bool
  | [] => false
  | (b, e) :: rest => hasSymbol x b || hasSymbol x e || factorsHaveSymbol x rest

end

end Expr

/-- Adds a name to a list of names that is in order and has no name twice. -/
def insertName (name : String) : List String → List String
  | [] => [name]
  | other :: rest =>
    if name < other then name :: other :: rest
    else if name = other then other :: rest
    else other :: insertName name rest

namespace Expr

/-- The symbols that an expression names itself and not through its parts. -/
def ownSymbols : Expr → List String
  | symbol name => [name]
  | derivative _ names => names
  | _ => []

/-- Where the search for symbols goes on: at the bases and exponents of a product, at the operands
of all else. The terms of a sum are searched with their multiplicities. -/
def searched : Expr → List Expr
  | product _ factors => factors.flatMap fun (b, e) => [b, e]
  | e => e.operands

theorem size_searched_lt {e next : Expr} (member : next ∈ e.searched) : next.size < e.size := by
  cases e with
  | product coefficient factors =>
    obtain ⟨⟨b, x⟩, inside, either⟩ := List.mem_flatMap.mp member
    have bound := size_factor_lt inside
    simp only [List.mem_cons, List.not_mem_nil, or_false] at either
    simp only [size]
    rcases either with rfl | rfl <;> omega
  | _ => exact size_operand_lt member

/-- Adds the symbols of an expression to the names found before. -/
def collectSymbols (found : List String) (e : Expr) : List String :=
  e.searched.attach.foldl (fun found ⟨next, _⟩ => collectSymbols found next)
    (e.ownSymbols.foldl (fun found name => insertName name found) found)
termination_by e.size
decreasing_by exact size_searched_lt ‹_›

/-- The names of all symbols in the expression, in order and each once. -/
def freeSymbols (e : Expr) : List String :=
  collectSymbols [] e

end Expr

end SymbolicAlgebra
