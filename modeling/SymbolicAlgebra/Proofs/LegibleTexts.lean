import SymbolicAlgebra.Proofs.Words

namespace SymbolicAlgebra

theorem intercalate_cons {α : Type} (separator text : List α) (texts : List (List α)) :
    separator.intercalate (text :: texts) = text ++ texts.flatMap fun t => separator ++ t := by
  induction texts generalizing text with
  | nil => simp
  | cons next others ih =>
    rw [List.intercalate_cons_cons, ih, List.flatMap_cons, List.append_assoc, List.append_assoc]

/-- The text is over or goes on with one of these characters. -/
def Ends (marks rest : List Char) : Prop :=
  ∀ c ∈ rest.head?, c ∈ marks

@[simp] theorem ends_nil (marks : List Char) : Ends marks [] := by
  simp [Ends]

@[simp] theorem ends_cons {marks rest : List Char} {c : Char} :
    Ends marks (c :: rest) ↔ c ∈ marks := by
  simp [Ends]

theorem Ends.mono {marks others rest : List Char} (ends : Ends marks rest)
    (subset : marks ⊆ others) : Ends others rest :=
  fun c head => subset (ends c head)

section Legible

variable {α : Type} {text next : α → List Char} {good : α → Prop} {ends stops : List Char → Prop}

/-- Which of the good items a text starts with, and where the item ends, can be seen from the
text. -/
def Legible (text : α → List Char) (good : α → Prop) (ends : List Char → Prop) (a : α) : Prop :=
  ∀ ⦃b rest rest'⦄, good b → ends rest → ends rest' → text a ++ rest = text b ++ rest' →
    a = b ∧ rest = rest'

theorem Legible.after {a : α} (legible : Legible text good ends a) (separator : List Char) :
    Legible (fun a => separator ++ text a) good ends a := by
  intro b rest rest' good_b ends_rest ends_rest' same
  rw [List.append_assoc, List.append_assoc] at same
  exact legible good_b ends_rest ends_rest' (List.append_cancel_left same)

/-- The later items of a list with the separators before them: each of them may follow an item, and
none reads like what may follow the list. -/
structure Separated (next : α → List Char) (good : α → Prop) (ends stops : List Char → Prop) :
    Prop where
  goes_on : ∀ a rest, good a → ends (next a ++ rest)
  goes_no_further : ∀ a rest, good a → ¬ stops (next a ++ rest)
  stops_ends : ∀ rest, stops rest → ends rest

namespace Separated

variable (separated : Separated next good ends stops)

include separated

theorem ends_flatMap {as : List α} (each : ∀ a ∈ as, good a) {rest : List Char}
    (stop : stops rest) : ends (as.flatMap next ++ rest) := by
  cases as with
  | nil => exact separated.stops_ends rest stop
  | cons a as =>
    rw [List.flatMap_cons, List.append_assoc]
    exact separated.goes_on a _ (each a (List.mem_cons_self ..))

theorem legible_flatMap {as : List α} (each : ∀ a ∈ as, good a)
    (legible : ∀ a ∈ as, Legible next good ends a) :
    Legible (List.flatMap next) (fun bs => ∀ b ∈ bs, good b) stops as := by
  induction as with
  | nil =>
    intro bs rest rest' good_bs stop stop' same
    cases bs with
    | nil => exact ⟨rfl, same⟩
    | cons b bs =>
      have item : rest = next b ++ (bs.flatMap next ++ rest') := by simpa using same
      have good_b := good_bs b (List.mem_cons_self ..)
      exact absurd (item ▸ stop) (separated.goes_no_further b _ good_b)
  | cons a as ih =>
    intro bs rest rest' good_bs stop stop' same
    obtain ⟨first, later⟩ := List.forall_mem_cons.mp each
    obtain ⟨legible_first, legible_later⟩ := List.forall_mem_cons.mp legible
    cases bs with
    | nil =>
      have item : next a ++ (as.flatMap next ++ rest) = rest' := by simpa using same
      exact absurd (item ▸ stop') (separated.goes_no_further a _ first)
    | cons b bs =>
      obtain ⟨good_first, good_later⟩ := List.forall_mem_cons.mp good_bs
      obtain ⟨rfl, texts⟩ := legible_first good_first (separated.ends_flatMap later stop)
        (separated.ends_flatMap good_later stop') (by simpa using same)
      obtain ⟨rfl, rests⟩ := ih later legible_later good_later stop stop' texts
      exact ⟨rfl, rests⟩

/-- A list that is not empty is legible if its items are. The first of them has no separator. -/
theorem inj {a b : α} {as bs : List α} {rest rest' : List Char}
    (first : Legible text good ends a) (later : ∀ x ∈ as, Legible next good ends x)
    (good_as : ∀ x ∈ as, good x) (good_bs : ∀ x ∈ b :: bs, good x) (stop : stops rest)
    (stop' : stops rest')
    (same : text a ++ (as.flatMap next ++ rest) = text b ++ (bs.flatMap next ++ rest')) :
    a :: as = b :: bs ∧ rest = rest' := by
  obtain ⟨good_b, good_later⟩ := List.forall_mem_cons.mp good_bs
  obtain ⟨rfl, texts⟩ := first good_b (separated.ends_flatMap good_as stop)
    (separated.ends_flatMap good_later stop') same
  obtain ⟨rfl, rests⟩ := separated.legible_flatMap good_as later good_later stop stop' texts
  exact ⟨rfl, rests⟩

end Separated

end Legible

end SymbolicAlgebra
