import SymbolicAlgebra.Error
import SymbolicAlgebra.Text.Lines
import SymbolicAlgebra.Expr.Display

namespace SymbolicAlgebra

inductive Channel where
  | error
  | warning
  | notice
  | debug
deriving DecidableEq, Repr

/-- The name of a channel in its terminal colour. -/
def Channel.heading : Channel → String
  | error => "\x1b[1;31mError\x1b[0m"
  | warning => "\x1b[1;33mWarning\x1b[0m"
  | notice => "\x1b[34mNotice\x1b[0m"
  | debug => "\x1b[38;5;244mDebug\x1b[0m"

/-- A step that the algebra takes. -/
inductive Event where
  | summed (terms : Nat) (constant : Rat)
  | multiplied (factors rewritten : Nat) (coefficient : Rat)
  | powerFlattened (base : Expr) (exponent : Int)
  | powerDistributed (base : Expr) (exponent : Int)
  | powerExpanded (base : Expr) (exponent : Int)
  | differentiated (x : String) (target : Expr)
  | substituted (found replacement : Expr)

/-- The step of adding up the summands. -/
def Event.ofSum (summands : List Expr) : Event :=
  let form := LinearForm.ofSummands summands
  .summed form.terms.length form.constant

/-- The verbosity from which on a step is written down. -/
def Event.level : Event → Int
  | differentiated _ _ => 5
  | substituted _ _ => 5
  | _ => 4

def Event.message : Event → String
  | summed terms constant =>
    "add: " ++ toString terms ++ " distinct terms, coefficient " ++ numberText constant
  | multiplied factors rewritten coefficient =>
    "mul: " ++ toString factors ++ " factors, " ++ toString rewritten ++
      " rewritten by pow, coefficient " ++ numberText coefficient
  | powerFlattened base exponent =>
    "pow: (" ++ base.inputForm ++ ")**" ++ toString exponent ++ " flattens"
  | powerDistributed base exponent =>
    "pow: (" ++ base.inputForm ++ ")**" ++ toString exponent ++ " distributes"
  | powerExpanded base exponent =>
    "expand: (" ++ base.inputForm ++ ")**" ++ toString exponent
  | differentiated x target => "diff: d/d" ++ x ++ " " ++ target.inputForm
  | substituted found replacement =>
    "subs: " ++ found.inputForm ++ " -> " ++ replacement.inputForm

/-- The lines written so far, and how much detail is wanted. -/
structure Journal where
  verbosity : Int
  lines : Array String

/-- Writes a message, which may take several lines; the first begins with the channel. -/
def Journal.write (journal : Journal) (channel : Channel) (message : String) : Journal :=
  { journal with lines := journal.lines ++ linesOf (channel.heading ++ ": " ++ message) }

/-- A message of some level is written only at that verbosity or a higher one. -/
def Journal.log (journal : Journal) (channel : Channel) (level : Int) (message : String) :
    Journal :=
  if level ≤ journal.verbosity then journal.write channel message else journal

def Journal.note (journal : Journal) (event : Event) : Journal :=
  if event.level ≤ journal.verbosity then journal.write .debug event.message else journal

/-- A setting in which the algebra runs and where its steps may be observed. The steps come
unevaluated, so that they cost nothing where nobody observes them. -/
class Observer (m : Type → Type) where
  observe : (Unit → List Event) → m Unit

export Observer (observe)

instance : Observer (Except Error) where
  observe _ := .ok ()

instance {σ : Type} {m : Type → Type} [Monad m] [Observer m] : Observer (StateT σ m) where
  observe events := StateT.lift (observe events)

/-- A computation that keeps a journal, also of the steps before a refusal. -/
abbrev Journaled := ExceptT Error (StateM Journal)

instance : Observer Journaled where
  observe events := modify fun journal => (events ()).foldl Journal.note journal

end SymbolicAlgebra
