import Mathlib.Data.List.Forall2
import SymbolicAlgebra.Proofs.Outcome

namespace SymbolicAlgebra

/-- Two computations end alike: both with results that are related, or both with the same refusal. -/
inductive EndAlike {α β : Type} (R : α → β → Prop) : Except Error α → Except Error β → Prop where
  | ok {a b} (related : R a b) : EndAlike R (.ok a) (.ok b)
  | error {cause} : EndAlike R (.error cause) (.error cause)

/-- A setting whose state and journal have no bearing on what its computations end with. Whether one
of them ends as a computation without any of that can be told step by step. -/
class Faithful (m : Type → Type) [Monad m] [MonadExceptOf Error m] [Observer m] where
  Follows {α β : Type} (R : α → β → Prop) : m α → Except Error β → Prop
  pure {α β : Type} {R : α → β → Prop} {a : α} {b : β} (related : R a b) :
    Follows R (pure a) (.ok b)
  throw {α β : Type} {R : α → β → Prop} (cause : Error) :
    Follows R (throw cause : m α) (.error cause)
  observe (events : Unit → List Event) : Follows (fun _ _ => True) (observe events) (.ok ())
  bind {α β α' β' : Type} {R : α → β → Prop} {S : α' → β' → Prop} {x : m α} {y : Except Error β}
    {f : α → m α'} {g : β → Except Error β'} (first : Follows R x y)
    (next : ∀ a b, y = .ok b → R a b → Follows S (f a) (g b)) : Follows S (x >>= f) (y >>= g)

export Faithful (Follows)

theorem EndAlike.bind {α β α' β' : Type} {R : α → β → Prop} {S : α' → β' → Prop}
    {x : Except Error α} {y : Except Error β} {f : α → Except Error α'} {g : β → Except Error β'}
    (first : EndAlike R x y) (next : ∀ a b, y = .ok b → R a b → EndAlike S (f a) (g b)) :
    EndAlike S (x >>= f) (y >>= g) := by
  cases first with
  | ok related => exact next _ _ rfl related
  | error => exact .error

instance : Faithful (Except Error) where
  Follows := EndAlike
  pure := .ok
  throw _ := .error
  observe _ := .ok trivial
  bind := EndAlike.bind

instance : Faithful Journaled where
  Follows R x y := ∀ journal, EndAlike R (x.run.run journal).1 y
  pure related _ := .ok related
  throw _ _ := .error
  observe _ _ := .ok trivial
  bind {_ _ _ _ _ _ x _ f _} first next journal := by
    have ended := first journal
    rw [ExceptT.run_bind, StateT.run_bind]
    generalize x.run.run journal = outcome at ended ⊢
    obtain ⟨result, later⟩ := outcome
    cases ended with
    | ok related => exact next _ _ rfl related later
    | error => exact .error

instance {σ : Type} {m : Type → Type} [Monad m] [MonadExceptOf Error m] [Observer m] [Faithful m] :
    Faithful (StateT σ m) where
  Follows R x y := ∀ s, Follows (fun (result : _ × σ) b => R result.1 b) (x.run s) y
  pure related s := Faithful.pure related
  throw cause s := by
    refine @Faithful.bind m _ _ _ _ _ _ _ _ (fun _ (_ : Unit) => True) _ _ _ _ (fun _ => .error cause)
      (Faithful.throw cause) fun _ _ failed _ => ?_
    cases failed
  observe events s := by
    exact @Faithful.bind m _ _ _ _ _ _ _ _ _ _ _ _ _ (fun _ => .ok ()) (Faithful.observe events)
      fun _ _ _ _ => Faithful.pure trivial
  bind first next s :=
    Faithful.bind (first s) fun result b found related => next result.1 b found related result.2

section Steps

variable {m : Type → Type} [Monad m] [MonadExceptOf Error m] [Observer m] [Faithful m]

theorem follows_ofExcept {α : Type} (x : Except Error α) :
    Follows Eq (MonadExcept.ofExcept x : m α) (MonadExcept.ofExcept x) := by
  cases x with
  | ok a => exact Faithful.pure rfl
  | error cause => exact Faithful.throw cause

section Sequence

variable {α β γ : Type} {S : β → γ → Prop}

/-- A step that ends as the plain one, and then another. -/
theorem follows_bind {x : m α} {y : Except Error α} {f : α → m β} {g : α → Except Error γ}
    (first : Follows Eq x y) (next : ∀ a, y = .ok a → Follows S (f a) (g a)) :
    Follows S (x >>= f) (y >>= g) :=
  Faithful.bind first fun _ b found same => same ▸ next b found

theorem follows_observed {events : Unit → List Event} {f : Unit → m β} {g : Unit → Except Error γ}
    (next : Follows S (f ()) (g ())) : Follows S (observe events >>= f) (observe events >>= g) :=
  Faithful.bind (Faithful.observe events) fun _ _ _ _ => next

/-- The plain setting takes no notice of what is observed. -/
theorem follows_unobserved {events : Unit → List Event} {f : Unit → m β} {y : Except Error γ}
    (next : Follows S (f ()) y) : Follows S (observe events >>= f) y :=
  @follows_observed m _ _ _ _ β γ S events f (fun _ => y) next

end Sequence

variable [LawfulMonad m]

theorem follows_map {α β α' β' : Type} {R : α → β → Prop} {S : α' → β' → Prop} {x : m α}
    {y : Except Error β} {f : α → α'} {g : β → β'} (first : Follows R x y)
    (next : ∀ a b, y = .ok b → R a b → S (f a) (g b)) : Follows S (f <$> x) (g <$> y) := by
  rw [map_eq_pure_bind, map_eq_pure_bind]
  exact Faithful.bind first fun a b found related => Faithful.pure (next a b found related)

theorem Faithful.imp {α β : Type} {R S : α → β → Prop} {x : m α} {y : Except Error β}
    (follows : Follows R x y) (weaker : ∀ a b, y = .ok b → R a b → S a b) : Follows S x y := by
  have mapped := @follows_map m _ _ _ _ _ _ _ _ _ _ S _ _ id id follows weaker
  rwa [id_map, id_map] at mapped

/-- What the steps for all elements of a list do together. -/
theorem follows_mapM {α β α' β' : Type} {R : α' → β' → Prop} {f : α → m α'}
    {g : β → Except Error β'} {as : List α} {bs : List β}
    (each : List.Forall₂ (fun a b => Follows R (f a) (g b)) as bs) :
    Follows (List.Forall₂ R) (as.mapM f) (bs.mapM g) := by
  induction each with
  | nil =>
    rw [List.mapM_nil, List.mapM_nil]
    exact Faithful.pure .nil
  | cons first _ ih =>
    rw [List.mapM_cons, List.mapM_cons]
    refine Faithful.bind first fun a b _ here => Faithful.bind ih fun as bs _ later => ?_
    exact Faithful.pure (.cons here later)

theorem follows_mapM_eq {α β : Type} {f : α → m β} {g : α → Except Error β} {as : List α}
    (each : ∀ a ∈ as, Follows Eq (f a) (g a)) : Follows Eq (as.mapM f) (as.mapM g) :=
  Faithful.imp (follows_mapM (List.forall₂_same.mpr each)) fun _ _ _ related =>
    List.forall₂_eq_eq_eq ▸ related

omit [LawfulMonad m] in
theorem follows_foldlM {α β : Type} {f : β → α → m β} {g : β → α → Except Error β} {as : List α}
    (each : ∀ a ∈ as, ∀ b, Follows Eq (f b a) (g b a)) (b : β) :
    Follows Eq (as.foldlM f b) (as.foldlM g b) := by
  induction as generalizing b with
  | nil =>
    rw [List.foldlM_nil, List.foldlM_nil]
    exact Faithful.pure rfl
  | cons a rest ih =>
    obtain ⟨here, later⟩ := List.forall_mem_cons.mp each
    rw [List.foldlM_cons, List.foldlM_cons]
    refine Faithful.bind (here b) fun c _ _ same => ?_
    subst same
    exact ih later c

end Steps

end SymbolicAlgebra
