import SymbolicAlgebra.Term
import SymbolicAlgebra.Node.Construction

namespace SymbolicAlgebra

/-- Evaluates a term whose steps are written down. The journal shows which nodes were made, so
the evaluation is one of nodes. -/
def Term.trace (verbosity : Int) (given : Option Term) (t : Term) :
    Except Error (Except Error Expr × Journal) := do
  let silent (t : Term) : StateT Nat (Except Error) Node :=
    t.evaluateWith Node.construct ⟨fun _ => none, none⟩
  let (start, serial) ← (given.mapM silent).run 0
  let observed : StateT Nat Journaled Node :=
    t.evaluateWith Node.construct ⟨fun _ => none, start⟩
  let (outcome, journal) := (observed.run' serial).run ⟨verbosity, #[]⟩
  return (outcome.map Node.value, journal)

end SymbolicAlgebra
