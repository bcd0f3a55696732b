import Mathlib.Logic.Function.Basic
import SymbolicAlgebra.Slots
import SymbolicAlgebra.Proofs.Evaluation

namespace SymbolicAlgebra

open SymbolicAlgebra.Expr

/-- What slots hold, name by name, however they are kept. -/
abbrev Contents := String → Option Expr

/-- The term that an operation comes to if the names of its operands refer to what these hold. An
expression that is set as it is stands for itself. -/
def Operation.term : Operation → Term
  | constant (.expression _) => .current
  | constant (.symbol name) => .symbol name
  | constant (.integer n) => .integer n
  | constant (.literal text) => .literal text
  | constant (.ratio n d) => .ratio n d
  | unary .copy a => .reference a
  | unary .negate a => .negation (.reference a)
  | unary .absolute a => .absolute (.reference a)
  | unary .expand a => .expansion (.reference a)
  | binary .ratio a b => .ratioOf (.reference a) (.reference b)
  | binary .add a b => .sum [.reference a, .reference b]
  | binary .subtract a b => .difference (.reference a) (.reference b)
  | binary .multiply a b => .product [.reference a, .reference b]
  | binary .divide a b => .quotient (.reference a) (.reference b)
  | binary .power a b => .power (.reference a) (.reference b)
  | binary .differentiate a x => .derivative (.reference a) [.reference x]

/-- The expression that is set as it is, if the operation sets one. -/
def Operation.given? : Operation → Option Expr
  | constant (.expression e) => some e
  | _ => none

def Operation.operands : Operation → List String
  | constant _ => []
  | unary _ a => [a]
  | binary _ a b => [a, b]

/-- What an operation gives by pure evaluation, if none of its operands is empty. -/
def Operation.evaluate (contents : Contents) (operation : Operation) : Except Error Expr :=
  if ∃ name ∈ operation.operands, contents name = none then .error .emptySlot
  else operation.term.evaluate ⟨contents, operation.given?⟩

namespace Contents

/-- An instruction carried out by pure evaluation: only a value that there is gets stored. -/
def step (contents : Contents) : Instruction → Contents × Except Error Answer
  | .store destination operation =>
    match operation.evaluate contents with
    | .ok e => (Function.update contents destination (some e), .ok .done)
    | .error cause => (contents, .error cause)
  | .renew destination => (Function.update contents destination none, .ok .done)
  | .release destination => (Function.update contents destination none, .ok .done)
  | .inspect name query => (contents, query.answer (contents name))

def run (contents : Contents) (program : List Instruction) : Contents :=
  program.foldl (fun contents instruction => (contents.step instruction).1) contents

protected def Canonical (contents : Contents) : Prop :=
  ∀ name e, contents name = some e → e.Canonical

end Contents

namespace Slots

theorem lookup_cons (name other : String) (content : Option Expr) (rest : Slots) :
    List.lookup other ((name, content) :: rest) =
      if other = name then some content else rest.lookup other := by
  by_cases same : other = name
  · rw [if_pos same, same, List.lookup_cons_self]
  · have apart : (other == name) = false := beq_false_of_ne same
    rw [if_neg same, List.lookup_cons, apart]

theorem lookup_remove (slots : Slots) (name other : String) :
    (slots.remove name).lookup other = if other = name then none else slots.lookup other := by
  induction slots with
  | nil => simp [remove]
  | cons slot rest ih =>
    obtain ⟨held, content⟩ := slot
    unfold remove at ih ⊢
    rw [lookup_cons]
    by_cases removed : held = name
    · rw [List.filter_cons_of_neg (by simpa using removed), ih, removed]
      split <;> rfl
    · rw [List.filter_cons_of_pos (by simpa using removed), lookup_cons, ih]
      by_cases first : other = held
      · rw [if_pos first, if_pos first, first, if_neg removed]
      · rw [if_neg first, if_neg first]

theorem get?_remove (slots : Slots) (name : String) :
    (slots.remove name).get? = Function.update slots.get? name none := by
  funext other
  rw [get?, lookup_remove, Function.update_apply]
  split <;> rfl

theorem get?_put (slots : Slots) (name : String) (content : Option Expr) :
    (slots.put name content).get? = Function.update slots.get? name content := by
  funext other
  rw [get?, put, lookup_cons, lookup_remove, Function.update_apply]
  by_cases same : other = name
  · rw [if_pos same, if_pos same]
    rfl
  · rw [if_neg same, if_neg same, if_neg same]
    rfl

theorem get?_address (slots : Slots) (name : String) : (slots.address name).get? = slots.get? := by
  rw [address, get?_put, Function.update_eq_self]

end Slots

namespace Operation

variable {contents : Contents}

theorem evaluate_of_empty {operation : Operation} {name : String}
    (operand : name ∈ operation.operands) (empty : contents name = none) :
    operation.evaluate contents = .error .emptySlot :=
  if_pos ⟨name, operand, empty⟩

theorem evaluate_of_held {operation : Operation}
    (held : ∀ name ∈ operation.operands, contents name ≠ none) :
    operation.evaluate contents = operation.term.evaluate ⟨contents, operation.given?⟩ :=
  if_neg fun ⟨name, operand, empty⟩ => held name operand empty

theorem evaluate_constant (contents : Contents) (c : Constant) :
    (constant c).evaluate contents = c.result := by
  rw [evaluate_of_held (by simp [operands])]
  cases c <;> simp only [term, given?, Term.evaluate, Term.evaluateWith, ofExcept_eq] <;> rfl

theorem evaluate_unary (f : UnaryOperation) {a : String} {e : Expr} (held : contents a = some e) :
    (unary f a).evaluate contents = f.apply e := by
  rw [evaluate_of_held (by simp [operands, held])]
  cases f <;> simp only [term, Term.evaluate, Term.evaluateWith, held] <;> rfl

theorem evaluate_binary (f : BinaryOperation) {a b : String} {l r : Expr}
    (left : contents a = some l) (right : contents b = some r) :
    (binary f a b).evaluate contents = f.apply l r := by
  rw [evaluate_of_held (by simp [operands, left, right])]
  cases f with
  | differentiate =>
    -- The derivative by the last of the variables is the whole result.
    simp only [term, Term.evaluate, Term.evaluateWith, Term.differentiateAll, left, right]
    exact bind_pure (differentiate l r : Except Error Expr)
  | _ =>
    simp only [term, Term.evaluate, Term.evaluateWith, Term.evaluateAll, left, right]
    rfl

/-- Reading the operands one after the other comes to pure evaluation. -/
theorem result_eq (slots : Slots) (operation : Operation) :
    operation.result slots = operation.evaluate slots.get? := by
  cases operation with
  | constant c => exact (evaluate_constant slots.get? c).symm
  | unary f a =>
    simp only [result, Slots.read]
    cases held : slots.get? a with
    | none => exact (evaluate_of_empty (by simp [operands]) held).symm
    | some e => exact (evaluate_unary f held).symm
  | binary f a b =>
    simp only [result, Slots.read]
    cases left : slots.get? a with
    | none => exact (evaluate_of_empty (by simp [operands]) left).symm
    | some l =>
      cases right : slots.get? b with
      | none => exact (evaluate_of_empty (by simp [operands]) right).symm
      | some r => exact (evaluate_binary f left right).symm

end Operation

/-- One instruction does to the slots what it does to their contents. -/
theorem Slots.step_refines (slots : Slots) (instruction : Instruction) :
    (slots.step instruction).1.get? = (Contents.step slots.get? instruction).1 ∧
      (slots.step instruction).2 = (Contents.step slots.get? instruction).2 := by
  cases instruction with
  | store destination operation =>
    simp only [step, Contents.step]
    rw [operation.result_eq]
    cases operation.evaluate slots.get? with
    | error cause => exact ⟨slots.get?_address destination, rfl⟩
    | ok e => exact ⟨(get?_put ..).trans (by rw [get?_address]), rfl⟩
  | renew destination => exact ⟨slots.get?_put destination none, rfl⟩
  | release destination => exact ⟨slots.get?_remove destination, rfl⟩
  | inspect name query => exact ⟨slots.get?_address name, rfl⟩

/-- Programs on slots do what pure evaluation does to their contents. -/
theorem Slots.get?_run (slots : Slots) (program : List Instruction) :
    (slots.run program).get? = Contents.run slots.get? program := by
  induction program generalizing slots with
  | nil => rfl
  | cons instruction rest ih =>
    have first := (slots.step_refines instruction).1
    rw [run, List.foldl_cons, Contents.run, List.foldl_cons, ← first]
    exact ih (slots.step instruction).1

theorem Slots.run_append_singleton (slots : Slots) (program : List Instruction)
    (instruction : Instruction) :
    slots.run (program ++ [instruction]) = ((slots.run program).step instruction).1 := by
  rw [run, List.foldl_append]
  rfl

def Instruction.destination : Instruction → String
  | store destination _ => destination
  | renew destination => destination
  | release destination => destination
  | inspect destination _ => destination

namespace Contents

variable {contents : Contents} {instruction : Instruction}

/-- An instruction changes nothing, or it is carried out and changes the content of its
destination. An expression only gets there as the value of an operation. -/
theorem step_cases (contents : Contents) (instruction : Instruction) :
    (contents.step instruction).1 = contents ∨
      (contents.step instruction).2 = .ok .done ∧ ∃ content,
        (contents.step instruction).1 = Function.update contents instruction.destination content ∧
        ∀ e, content = some e → ∃ operation,
          instruction = .store instruction.destination operation ∧
            operation.evaluate contents = .ok e := by
  cases instruction with
  | store destination operation =>
    simp only [step]
    cases found : operation.evaluate contents with
    | error cause => exact .inl rfl
    | ok value =>
      refine .inr ⟨rfl, some value, rfl, fun e stored => ⟨operation, rfl, ?_⟩⟩
      cases stored
      exact found
  | renew destination => exact .inr ⟨rfl, none, rfl, fun e stored => by cases stored⟩
  | release destination => exact .inr ⟨rfl, none, rfl, fun e stored => by cases stored⟩
  | inspect name query => exact .inl rfl

theorem step_of_error {cause : Error} (refused : (contents.step instruction).2 = .error cause) :
    (contents.step instruction).1 = contents := by
  rcases contents.step_cases instruction with same | ⟨done, _⟩
  · exact same
  · rw [done] at refused
    cases refused

theorem step_apart {name : String} (apart : name ≠ instruction.destination) :
    (contents.step instruction).1 name = contents name := by
  rcases contents.step_cases instruction with same | ⟨_, content, updated, _⟩
  · rw [same]
  · rw [updated, Function.update_of_ne apart]

end Contents

/-- Operations on canonical contents give canonical expressions. -/
theorem Operation.canonical_evaluate {contents : Contents} {operation : Operation} {r : Expr}
    (found : operation.evaluate contents = .ok r) (canonical : contents.Canonical)
    (given : ∀ e, operation = constant (.expression e) → e.Canonical) : r.Canonical := by
  have bound : Bindings.All ⟨contents, operation.given?⟩ Expr.Canonical := by
    refine ⟨canonical, fun e same => given e ?_⟩
    unfold given? at same
    split at same
    · rw [Option.some.inj same]
    · cases same
  unfold evaluate at found
  split at found
  · cases found
  · exact Term.evaluateWith_preserves (fun _ _ => Construction.canonical_result) bound found

namespace Contents

variable {contents : Contents}

theorem Canonical.update (canonical : contents.Canonical) (name : String)
    {content : Option Expr} (new : ∀ e, content = some e → e.Canonical) :
    Contents.Canonical (Function.update contents name content) := by
  intro other e held
  by_cases same : other = name
  · rw [same, Function.update_self] at held
    exact new e held
  · rw [Function.update_of_ne same] at held
    exact canonical other e held

theorem Canonical.step (canonical : contents.Canonical) {instruction : Instruction}
    (given : ∀ name e, instruction = .store name (.constant (.expression e)) → e.Canonical) :
    Contents.Canonical (contents.step instruction).1 := by
  rcases contents.step_cases instruction with same | ⟨_, content, updated, stored⟩
  · rw [same]
    exact canonical
  · rw [updated]
    refine canonical.update instruction.destination fun e inside => ?_
    obtain ⟨operation, shape, found⟩ := stored e inside
    refine Operation.canonical_evaluate found canonical fun e constant => ?_
    rw [constant] at shape
    exact given _ e shape

theorem Canonical.run (canonical : contents.Canonical) {program : List Instruction}
    (given : ∀ name e, .store name (.constant (.expression e)) ∈ program → e.Canonical) :
    Contents.Canonical (contents.run program) := by
  induction program generalizing contents with
  | nil => exact canonical
  | cons instruction rest ih =>
    have first : Contents.Canonical (contents.step instruction).1 :=
      canonical.step fun name e shape => given name e (shape ▸ List.mem_cons_self ..)
    exact ih first fun name e later => given name e (List.mem_cons_of_mem _ later)

end Contents

/-- Programs on slots are pure evaluation. What is in the slots after a program comes from applying
each operation to what its operands held just before it; an instruction that is refused leaves all
slots as they were and any other only changes its destination, and whatever is in a slot meanwhile
is canonical. -/
theorem Slots.run_refines {slots : Slots} {program : List Instruction}
    (start : Contents.Canonical slots.get?)
    (given : ∀ name e, .store name (.constant (.expression e)) ∈ program → e.Canonical) :
    (slots.run program).get? = Contents.run slots.get? program ∧
      (∀ before instruction, before ++ [instruction] <+: program →
        let now := slots.run before
        let next := slots.run (before ++ [instruction])
        (now.step instruction).2 = (Contents.step now.get? instruction).2 ∧
          (∀ cause, (now.step instruction).2 = .error cause → next.get? = now.get?) ∧
          ∀ name, name ≠ instruction.destination → next.get? name = now.get? name) ∧
      ∀ before, before <+: program → Contents.Canonical (slots.run before).get? := by
  refine ⟨slots.get?_run program, fun before instruction _ => ?_, fun before inside => ?_⟩
  · intro now next
    obtain ⟨contents, answer⟩ := now.step_refines instruction
    have after : next.get? = (Contents.step now.get? instruction).1 := by
      rw [← contents, ← slots.run_append_singleton]
    refine ⟨answer, fun cause refused => ?_, fun name apart => ?_⟩
    · rw [after]
      exact Contents.step_of_error (answer.symm.trans refused)
    · rw [after]
      exact Contents.step_apart apart
  · rw [slots.get?_run]
    exact start.run fun name e stored => given name e (inside.subset stored)

/-- A slot is added to another and holds the result, an operation lacks an operand, and a quotient
is refused. -/
def addedInPlace : List Instruction :=
  [.store "u" (.constant (.symbol "x")),
    .store "v" (.constant (.expression (sum 1 [(symbol "x", 1)]))),
    .store "u" (.binary .add "u" "v"),
    .store "v" (.binary .multiply "u" "w"),
    .store "w" (.constant (.integer 0)),
    .store "u" (.binary .divide "v" "w")]

theorem Slots.run_refines_addedInPlace :
    Contents.Canonical (get? []) ∧
      (∀ name e, .store name (.constant (.expression e)) ∈ addedInPlace → e.Canonical) ∧
      (run [] addedInPlace).get? = Contents.run (get? []) addedInPlace ∧
      Contents.Canonical (run [] addedInPlace).get? ∧
      (run [] addedInPlace).get? "u" = some (sum 1 [(symbol "x", 2)]) ∧
      (run [] addedInPlace).get? "v" = some (sum 1 [(symbol "x", 1)]) ∧
      (run [] addedInPlace).get? "w" = some (number 0) := by
  have start : Contents.Canonical (get? []) := fun name e held => by cases held
  have given : ∀ name e, .store name (.constant (.expression e)) ∈ addedInPlace →
      e.Canonical := by
    intro name e stored
    simp only [addedInPlace, List.mem_cons, Instruction.store.injEq, Operation.constant.injEq,
      Constant.expression.injEq, reduceCtorEq, and_false, false_or, or_false,
      List.not_mem_nil] at stored
    rw [stored.2]
    exact canonical_successor "x"
  obtain ⟨contents, _, canonical⟩ := run_refines start given
  have empty : get? [] = fun _ => none := rfl
  refine ⟨start, given, contents, canonical _ (List.prefix_refl _), ?_, ?_, ?_⟩ <;>
    · rw [contents, empty]
      cbv

end SymbolicAlgebra
