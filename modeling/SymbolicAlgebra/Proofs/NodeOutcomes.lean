import SymbolicAlgebra.Trace
import SymbolicAlgebra.Proofs.Evaluation
import SymbolicAlgebra.Proofs.NodeSubstitution

namespace SymbolicAlgebra

open SymbolicAlgebra.Expr

namespace Construction

variable {m : Type → Type} [Monad m] [MonadExceptOf Error m] [Observer m] [Faithful m] [LawfulMonad m]

/-- Operations end in every setting as they do in the plain one. -/
theorem follows_result {c : Construction Expr} (other : ∀ a pairs, c ≠ .substitution a pairs) :
    Follows Eq (c.result : m Expr) c.result := by
  cases c with
  | number q => exact Faithful.pure rfl
  | symbol name => exact Faithful.pure rfl
  | ratio n d => exact follows_ratioOf n d
  | sum summands => exact follows_summed summands
  | product operands => exact follows_productOf operands
  | power b e => exact follows_powerOf b e
  | difference l r => exact follows_summed [l, r.negate]
  | quotient l r => exact follows_quotientOf l r
  | negation a => exact Faithful.pure rfl
  | absolute a => exact Faithful.pure rfl
  | sin a => exact Faithful.pure rfl
  | cos a => exact Faithful.pure rfl
  | apply name a => exact Faithful.pure rfl
  | formalDerivative a xs =>
    exact follows_bind (follows_mapM_eq fun e _ => follows_variableName e) fun _ _ =>
      Faithful.pure rfl
  | derivative a x => exact follows_differentiate a x
  | expansion a => exact follows_expand a
  | substitution a pairs => exact absurd rfl (other a pairs)
  | operand a i =>
    simp only [result]
    split
    · exact Faithful.pure rfl
    · exact Faithful.throw _
  | base a => exact Faithful.pure rfl
  | exponent a => exact Faithful.pure rfl

end Construction

namespace Node

/-- The node that is made for the result of an operation shows the result. -/
theorem value_ofConstruction {c : Construction Node} {e : Expr}
    (found : ((c.map value).result : Except Error Expr) = .ok e) (canonical : e.Canonical) :
    (ofConstruction e c).value = e := by
  cases c with
  | number q => rfl
  | symbol name => rfl
  | ratio n d => rfl
  | sum summands => exact value_sum summands canonical
  | product operands => exact value_product operands e
  | power b x => exact value_power found
  | difference l r => exact value_sum _ canonical
  | quotient l r => exact value_product _ e
  | negation a =>
    cases found
    exact value_scale (-1) a
  | absolute a => exact value_derived a e
  | sin a => rfl
  | cos a => rfl
  | apply name a => rfl
  | formalDerivative a xs =>
    obtain ⟨names, named, found⟩ := bind_eq_ok_iff.mp found
    cases xs with
    | nil =>
      cases named
      cases found
      rfl
    | cons x rest => rfl
  | derivative a x => exact value_derived a e
  | expansion a =>
    change (expand a.value : Except Error Expr) = .ok e at found
    cases shape : a.value with
    | sum _ _ | product _ _ | power _ _ =>
      simp only [ofConstruction, shape]
      exact value_derived a e
    | _ =>
      rw [shape, expand] at found
      · cases found
        simp only [ofConstruction, shape]
      all_goals simp
  | substitution a pairs => rfl
  | operand a i =>
    have stored : (a.operands[i]?).map value = some e := by
      rw [← List.getElem?_map, map_value_operands]
      simp only [Construction.map, Construction.result] at found
      split at found
      · cases found
        assumption
      · cases found
    obtain ⟨node, inside, shows⟩ := Option.map_eq_some_iff.mp stored
    rw [ofConstruction, inside]
    exact shows
  | base a =>
    cases found
    exact (value_toFactor a).1
  | exponent a =>
    cases found
    exact (value_toFactor a).2

variable {m : Type → Type} [Monad m] [MonadExceptOf Error m] [Observer m] [Faithful m] [LawfulMonad m]

theorem follows_construct_of {c : Construction Node} (other : ∀ a pairs, c ≠ .substitution a pairs)
    (canonical : ∀ w ∈ (c.map value).values, w.Canonical) :
    Follows (Image value Canonical)
      (do make (ofConstruction (← (c.map value).result) c) : StateT Nat m Node)
      ((c.map value).result) := by
  have first : Follows Eq ((c.map value).result : StateT Nat m Expr) (c.map value).result :=
    Construction.follows_result fun a pairs same => by cases c <;> cases same; exact other _ _ rfl
  have made := follows_made first fun e found =>
    value_ofConstruction found (Construction.canonical_result found canonical)
  exact Faithful.imp made fun _ e found shows => ⟨shows, Construction.canonical_result found canonical⟩

/-- Operations on nodes give nodes that show what the operations give for the values. -/
theorem transports_construct : Transports (construct : Construction Node → StateT Nat m Node)
    Construction.result value Canonical := by
  intro c canonical
  cases c with
  | substitution a pairs =>
    have shown_pairs : shown (Substitution.ofPairs (pairs.map fun pair => (pair.1.value, pair.2))) =
        Substitution.ofPairs (pairs.map fun pair => (pair.1.value, pair.2.value)) := by
      simp [shown, Substitution.ofPairs, List.map_reverse]
    obtain ⟨target, replacements⟩ := List.forall_mem_cons.mp canonical
    have map_canonical : (Substitution.ofPairs
        (pairs.map fun pair => (pair.1.value, pair.2.value))).Canonical :=
      canonical_ofPairs replacements
    have substituted := @follows_substitute m _ _ _ _ _ _ (shown_pairs ▸ map_canonical) a target
    rw [shown_pairs] at substituted
    exact Faithful.imp substituted fun _ e found shows =>
      ⟨shows, canonical_substitute map_canonical found target⟩
  | _ => exact follows_construct_of (by simp) canonical

end Node

theorem EndAlike.map_eq {α β : Type} {R : α → β → Prop} {f : α → β} {x : Except Error α}
    {y : Except Error β} (ended : EndAlike R x y) (same : ∀ a b, R a b → f a = b) :
    x.map f = y := by
  cases ended with
  | ok related => exact congrArg Except.ok (same _ _ related)
  | error => rfl

/-- The outcome of a journaled computation whose state is dropped. -/
theorem map_journaled_run' {σ α β : Type} (f : α → β) (x : StateT σ Journaled α) (s : σ)
    (journal : Journal) : ((x.run' s).run journal).1.map f =
      ((x.run s).run.run journal).1.map fun result => f result.1 := by
  rw [StateT.run'_eq, ExceptT.run_map]
  change (((x.run s).run.run journal).1.map Prod.fst).map f = _
  cases ((x.run s).run.run journal).1 <;> rfl

/-- The expression that was given before the journal begins. -/
theorem follows_given (given : Option Term) :
    Follows (fun start w => start.map Node.value = w ∧ ∀ e, w = some e → e.Canonical)
      (given.mapM fun t => t.evaluateWith Node.construct ⟨fun _ => none, none⟩ :
        StateT Nat (Except Error) (Option Node))
      (given.mapM fun t => t.evaluate ⟨fun _ => none, none⟩) := by
  cases given with
  | none => exact Faithful.pure ⟨rfl, nofun⟩
  | some t =>
    have unbound : Bindings.All (Bindings.map Node.value ⟨fun _ => none, none⟩) Canonical :=
      ⟨nofun, nofun⟩
    rw [Option.mapM_some, Option.mapM_some]
    refine follows_map (Term.follows_evaluateWith Node.transports_construct t unbound)
      fun node e _ image => ⟨congrArg some image.1, fun _ same => ?_⟩
    cases same
    exact image.2

/-- Neither the nodes nor the journal have a bearing on the outcome: the traced evaluation of a term
gives the same expression, or the same refusal, as the evaluation of its values. -/
theorem Term.outcome_trace (verbosity : Int) (given : Option Term) (t : Term) :
    Prod.fst <$> t.trace verbosity given = (do
      let start ← given.mapM (Term.evaluate ⟨fun _ => none, none⟩)
      return t.evaluate ⟨fun _ => none, start⟩ : Except Error (Except Error Expr)) := by
  have begun : EndAlike _ _ _ := follows_given given 0
  unfold trace
  dsimp only
  generalize (given.mapM fun t => t.evaluateWith Node.construct ⟨fun _ => none, none⟩ :
    StateT Nat (Except Error) (Option Node)).run 0 = first at begun ⊢
  generalize (given.mapM fun t => t.evaluate ⟨fun _ => none, none⟩ :
    Except Error (Option Expr)) = plain at begun ⊢
  cases begun with
  | error => rfl
  | @ok started start related =>
    obtain ⟨node, serial⟩ := started
    obtain ⟨rfl, canonical⟩ := related
    have bound : Bindings.All (Bindings.map Node.value ⟨fun _ => none, node⟩) Canonical :=
      ⟨nofun, canonical⟩
    have observed : Follows (Image Node.value Canonical)
        (t.evaluateWith Node.construct ⟨fun _ => none, node⟩ : StateT Nat Journaled Node)
        (t.evaluate ⟨fun _ => none, node.map Node.value⟩) :=
      Term.follows_evaluateWith Node.transports_construct t bound
    have ended : EndAlike _ _ _ := observed serial ⟨verbosity, #[]⟩
    exact congrArg Except.ok ((map_journaled_run' Node.value _ serial _).trans
      (ended.map_eq fun _ _ image => image.1))

end SymbolicAlgebra
