import Mathlib.Data.List.Forall2
import SymbolicAlgebra.Journal

namespace SymbolicAlgebra

/-- A sequence of two steps succeeds exactly when both do. -/
theorem bind_eq_ok_iff {α β : Type} {x : Except Error α} {f : α → Except Error β} {b : β} :
    x >>= f = .ok b ↔ ∃ a, x = .ok a ∧ f a = .ok b := by
  cases x with
  | error cause =>
    constructor
    · intro found
      cases found
    · rintro ⟨a, found, _⟩
      cases found
  | ok a =>
    constructor
    · intro found
      exact ⟨a, rfl, found⟩
    · rintro ⟨_, same, found⟩
      cases same
      exact found

/-- Nobody observes the steps of a computation that keeps no journal. -/
theorem observe_bind {β : Type} (events : Unit → List Event) (f : Unit → Except Error β) :
    (observe events >>= f) = f () :=
  rfl

theorem map_eq_ok_iff {α β : Type} {x : Except Error α} {f : α → β} {b : β} :
    f <$> x = .ok b ↔ ∃ a, x = .ok a ∧ f a = b := by
  rw [map_eq_pure_bind, bind_eq_ok_iff]
  refine exists_congr fun a => and_congr_right fun _ => ?_
  exact ⟨Except.ok.inj, congrArg _⟩

theorem ofExcept_eq {α : Type} (x : Except Error α) :
    (MonadExcept.ofExcept x : Except Error α) = x := by
  cases x <;> rfl

/-- An outcome that carries its own bound keeps it. -/
theorem property_of_val_eq_ok {α : Type} (P : α → Prop) {x : Except Error { a // P a }} {a : α}
    (found : Subtype.val <$> x = .ok a) : P a := by
  obtain ⟨bounded, _, rfl⟩ := map_eq_ok_iff.mp found
  exact bounded.2

theorem mapM_eq_ok_iff {α β : Type} {f : α → Except Error β} {as : List α} {bs : List β} :
    as.mapM f = .ok bs ↔ List.Forall₂ (fun a b => f a = .ok b) as bs := by
  induction as generalizing bs with
  | nil =>
    rw [List.mapM_nil, List.forall₂_nil_left_iff]
    exact ⟨fun found => (Except.ok.inj found).symm, fun empty => congrArg Except.ok empty.symm⟩
  | cons a rest ih =>
    rw [List.mapM_cons, bind_eq_ok_iff]
    constructor
    · rintro ⟨b, first, found⟩
      obtain ⟨others, later, found⟩ := bind_eq_ok_iff.mp found
      cases found
      exact .cons first (ih.mp later)
    · rintro (_ | ⟨first, later⟩)
      exact ⟨_, first, bind_eq_ok_iff.mpr ⟨_, ih.mpr later, rfl⟩⟩

/-- If every operand has a result, so do all of them together. -/
theorem exists_mapM {α β : Type} {f : α → Except Error β} {P : α → β → Prop} {as : List α}
    (each : ∀ a ∈ as, ∃ b, f a = .ok b ∧ P a b) :
    ∃ bs, as.mapM f = .ok bs ∧ List.Forall₂ P as bs := by
  induction as with
  | nil => exact ⟨[], rfl, .nil⟩
  | cons a rest ih =>
    obtain ⟨b, first, holds⟩ := each a (List.mem_cons_self ..)
    obtain ⟨bs, later, all⟩ := ih fun a' member => each a' (List.mem_cons_of_mem _ member)
    refine ⟨b :: bs, ?_, .cons holds all⟩
    rw [List.mapM_cons]
    exact bind_eq_ok_iff.mpr ⟨b, first, bind_eq_ok_iff.mpr ⟨bs, later, rfl⟩⟩

/-- Every result comes from one of the operands. -/
theorem exists_of_mem_mapM {α β : Type} {f : α → Except Error β} {as : List α} {bs : List β}
    (found : as.mapM f = .ok bs) {b : β} (member : b ∈ bs) : ∃ a ∈ as, f a = .ok b := by
  have related := mapM_eq_ok_iff.mp found
  clear found
  induction related with
  | nil => cases member
  | @cons a b' as bs first _ ih =>
    rcases List.mem_cons.mp member with rfl | later
    · exact ⟨a, List.mem_cons_self .., first⟩
    · obtain ⟨a', inside, result⟩ := ih later
      exact ⟨a', List.mem_cons_of_mem _ inside, result⟩

/-- If every operand has a result of some sort, all of them together have results of that sort. -/
theorem exists_mapM_forall {α β : Type} {f : α → Except Error β} {P : β → Prop} {as : List α}
    (each : ∀ a ∈ as, ∃ b, f a = .ok b ∧ P b) : ∃ bs, as.mapM f = .ok bs ∧ ∀ b ∈ bs, P b := by
  obtain ⟨bs, found, _⟩ := exists_mapM each
  refine ⟨bs, found, fun b member => ?_⟩
  obtain ⟨a, inside, result⟩ := exists_of_mem_mapM found member
  obtain ⟨b', result', holds⟩ := each a inside
  cases result.symm.trans result'
  exact holds

theorem mapM_eq_ok_map {α β : Type} {f : α → Except Error β} {g : α → β} {as : List α}
    (each : ∀ a ∈ as, f a = .ok (g a)) : as.mapM f = .ok (as.map g) :=
  mapM_eq_ok_iff.mpr (List.forall₂_map_right_iff.mpr (List.forall₂_same.mpr each))

/-- What every result has from its operand, all of them have from all operands. -/
theorem map_eq_map_of_mapM {α β : Type} {γ : Type*} {f : α → Except Error β} {g : β → γ}
    {h : α → γ} {as : List α} {bs : List β} (found : as.mapM f = .ok bs)
    (each : ∀ a ∈ as, ∀ b, f a = .ok b → g b = h a) : bs.map g = as.map h := by
  have related :=
    (List.forall₂_and_left as bs).mpr ⟨fun a member => member, mapM_eq_ok_iff.mp found⟩
  have values := related.imp fun a b both => each a both.1 b both.2
  clear each found related
  induction values with
  | nil => rfl
  | cons first _ ih => exact congrArg₂ List.cons first ih

/-- Together the steps have results exactly when each of them does. -/
theorem mapM_eq_ok_iff_map {α β : Type} {f : α → Except Error β} {g : α → β}
    (result : ∀ a b, f a = .ok b → g a = b) {as : List α} {bs : List β} :
    as.mapM f = .ok bs ↔ (∀ a ∈ as, ∃ b, f a = .ok b) ∧ as.map g = bs := by
  constructor
  · intro found
    have related := mapM_eq_ok_iff.mp found
    clear found
    induction related with
    | nil => simp
    | @cons a b as bs first _ ih =>
      exact ⟨List.forall_mem_cons.mpr ⟨⟨b, first⟩, ih.1⟩,
        congrArg₂ List.cons (result a b first) ih.2⟩
  · rintro ⟨each, rfl⟩
    refine mapM_eq_ok_map fun a member => ?_
    obtain ⟨b, found⟩ := each a member
    rw [found, result a b found]

/-- If other steps make something else of every result, they make it of all together. -/
theorem mapM_map_eq_ok {α β γ : Type} {f : α → Except Error β} {f' : α → Except Error γ}
    {g : β → γ} {as : List α} {bs : List β} (found : as.mapM f = .ok bs)
    (each : ∀ a ∈ as, ∀ b, f a = .ok b → f' a = .ok (g b)) : as.mapM f' = .ok (bs.map g) := by
  have related :=
    (List.forall₂_and_left as bs).mpr ⟨fun a member => member, mapM_eq_ok_iff.mp found⟩
  refine mapM_eq_ok_iff.mpr (List.forall₂_map_right_iff.mpr (related.imp fun a b both => ?_))
  exact each a both.1 b both.2

/-- If other steps make something else of every result, they make it of all together, or are
refused together. -/
theorem mapM_map_result {α β γ : Type} (f : α → Except Error β) (g : β → γ) (as : List α) :
    as.mapM (fun a => g <$> f a) = List.map g <$> as.mapM f := by
  induction as with
  | nil => rfl
  | cons a rest ih =>
    rw [List.mapM_cons, List.mapM_cons, ih]
    cases f a with
    | error cause => rfl
    | ok b => cases rest.mapM f <;> rfl

/-- Steps that are the same for every operand are the same for all of them together. -/
theorem mapM_congr {α β : Type} {f g : α → Except Error β} {as : List α}
    (same : ∀ a ∈ as, f a = g a) : as.mapM f = as.mapM g := by
  induction as with
  | nil => rfl
  | cons a rest ih =>
    rw [List.mapM_cons, List.mapM_cons, same a (List.mem_cons_self ..),
      ih fun a' member => same a' (List.mem_cons_of_mem _ member)]

/-- What every step preserves holds after all of them. -/
theorem foldlM_preserves {α β : Type} {f : β → α → Except Error β} {P : β → Prop} {as : List α}
    {b r : β} (found : as.foldlM f b = .ok r) (start : P b)
    (step : ∀ a ∈ as, ∀ b c, P b → f b a = .ok c → P c) : P r := by
  induction as generalizing b with
  | nil =>
    cases found
    exact start
  | cons a rest ih =>
    rw [List.foldlM_cons] at found
    obtain ⟨c, first, found⟩ := bind_eq_ok_iff.mp found
    have next := step a (List.mem_cons_self ..) b c start first
    exact ih found next fun a' member => step a' (List.mem_cons_of_mem _ member)

end SymbolicAlgebra
