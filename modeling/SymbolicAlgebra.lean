import SymbolicAlgebra.Error
import SymbolicAlgebra.Number
import SymbolicAlgebra.Text.Blank
import SymbolicAlgebra.Text.Lines
import SymbolicAlgebra.Text.IntegerLiteral
import SymbolicAlgebra.Expr
import SymbolicAlgebra.Expr.Order
import SymbolicAlgebra.Expr.Compare
import SymbolicAlgebra.Sum
import SymbolicAlgebra.Expr.Display
import SymbolicAlgebra.Factors
import SymbolicAlgebra.Factors.Weight
import SymbolicAlgebra.Journal
import SymbolicAlgebra.Product
import SymbolicAlgebra.Arithmetic
import SymbolicAlgebra.Symbols
import SymbolicAlgebra.Differentiation
import SymbolicAlgebra.Substitution
import SymbolicAlgebra.Expansion
import SymbolicAlgebra.Construction
import SymbolicAlgebra.Term
import SymbolicAlgebra.Slots
import SymbolicAlgebra.Node
import SymbolicAlgebra.Node.Substitution
import SymbolicAlgebra.Node.Construction
import SymbolicAlgebra.Trace
import SymbolicAlgebra.Interned
import SymbolicAlgebra.Proofs.InternedOrder
import SymbolicAlgebra.Proofs.Canonical
import SymbolicAlgebra.Proofs.LinearForm
import SymbolicAlgebra.Proofs.VectorSpace
import SymbolicAlgebra.Proofs.Preservation
import SymbolicAlgebra.Proofs.Rewriting
import SymbolicAlgebra.Proofs.ClosedClasses
import SymbolicAlgebra.Proofs.Closure
import SymbolicAlgebra.Proofs.Summands
import SymbolicAlgebra.Proofs.LinearOperations
import SymbolicAlgebra.Proofs.Evaluation
import SymbolicAlgebra.Proofs.Merging
import SymbolicAlgebra.Proofs.MergedTotals
import SymbolicAlgebra.Proofs.FactorRuns
import SymbolicAlgebra.Proofs.Readings
import SymbolicAlgebra.Proofs.Meaning
import SymbolicAlgebra.Proofs.Bases
import SymbolicAlgebra.Proofs.ValuePreservation
import SymbolicAlgebra.Proofs.VisitOrder
import SymbolicAlgebra.Proofs.ZeroBase
import SymbolicAlgebra.Proofs.Passes
import SymbolicAlgebra.Proofs.Grouping
import SymbolicAlgebra.Proofs.IntegerPowers
import SymbolicAlgebra.Proofs.ForwardMode
import SymbolicAlgebra.Proofs.DerivativeLaws
import SymbolicAlgebra.Proofs.Occurrences
import SymbolicAlgebra.Proofs.TameBases
import SymbolicAlgebra.Proofs.EqualReplacements
import SymbolicAlgebra.Proofs.SumSubstitution
import SymbolicAlgebra.Proofs.SymbolSubstitution
import SymbolicAlgebra.Proofs.Calculation
import SymbolicAlgebra.Proofs.NumericSubstitution
import SymbolicAlgebra.Proofs.Polynomials
import SymbolicAlgebra.Proofs.Monomials
import SymbolicAlgebra.Proofs.ExpandedForm
import SymbolicAlgebra.Proofs.Rebuilding
import SymbolicAlgebra.Proofs.RaisedFactors
import SymbolicAlgebra.Proofs.Reciprocals
import SymbolicAlgebra.Proofs.Raises
import SymbolicAlgebra.Proofs.Distribution
import SymbolicAlgebra.Proofs.Assignments
import SymbolicAlgebra.Proofs.ExpandedValue
import SymbolicAlgebra.Proofs.SumFree
import SymbolicAlgebra.Proofs.Exhaustion
import SymbolicAlgebra.Proofs.ExhaustiveExpansion
import SymbolicAlgebra.Proofs.ScaledProducts
import SymbolicAlgebra.Proofs.Termination
import SymbolicAlgebra.Proofs.SharedBases
import SymbolicAlgebra.Proofs.FactorwisePowers
import SymbolicAlgebra.Proofs.RaisedApart
import SymbolicAlgebra.Proofs.PowersOfPowers
import SymbolicAlgebra.Proofs.Renaming
import SymbolicAlgebra.Proofs.RenamedRuns
import SymbolicAlgebra.Proofs.RenamedDerivatives
import SymbolicAlgebra.Proofs.NamePermutations
import SymbolicAlgebra.Proofs.ExactPowers
import SymbolicAlgebra.Proofs.IntegerExponents
import SymbolicAlgebra.Proofs.Words
import SymbolicAlgebra.Proofs.LegibleTexts
import SymbolicAlgebra.Proofs.FullForms
import SymbolicAlgebra.Proofs.InputTexts
import SymbolicAlgebra.Proofs.InputForms
import SymbolicAlgebra.Proofs.SymbolSources
import SymbolicAlgebra.Proofs.AbsoluteValues
import SymbolicAlgebra.Proofs.Multiples
import SymbolicAlgebra.Proofs.ExpansionSize
import SymbolicAlgebra.Proofs.Numerals
import SymbolicAlgebra.Proofs.Faithful
import SymbolicAlgebra.Proofs.Transport
import SymbolicAlgebra.Proofs.SameOutcomes
import SymbolicAlgebra.Proofs.NodeValues
import SymbolicAlgebra.Proofs.NodeSubstitution
import SymbolicAlgebra.Proofs.NodeOutcomes
