import SymbolicAlgebra.Term
import SymbolicAlgebra.Proofs.Faithful

namespace SymbolicAlgebra

/-- The values that an operation is given. -/
def Construction.values {V : Type} : Construction V → List V
  | number _ => []
  | symbol _ => []
  | ratio n d => [n, d]
  | sum summands => summands
  | product operands => operands
  | power b e => [b, e]
  | difference l r => [l, r]
  | quotient l r => [l, r]
  | negation a => [a]
  | absolute a => [a]
  | sin a => [a]
  | cos a => [a]
  | apply _ a => [a]
  | formalDerivative a xs => a :: xs
  | derivative a x => [a, x]
  | expansion a => [a]
  | substitution a pairs => a :: pairs.flatMap fun (k, r) => [k, r]
  | operand a _ => [a]
  | base a => [a]
  | exponent a => [a]

/-- Whatever is bound has the property. -/
structure Bindings.All {V : Type} (bindings : Bindings V) (P : V → Prop) : Prop where
  named : ∀ name v, bindings.named name = some v → P v
  current : ∀ v, bindings.current = some v → P v

theorem Bindings.All.withCurrent {V : Type} {bindings : Bindings V} {P : V → Prop}
    (bound : bindings.All P) {v : V} (holds : P v) :
    { bindings with current := some v }.All P where
  named := bound.named
  current w same := by
    cases same
    exact holds

/-- The images of what is bound. -/
def Bindings.map {V W : Type} (f : V → W) (bindings : Bindings V) : Bindings W where
  named name := (bindings.named name).map f
  current := bindings.current.map f

/-- What one evaluation gives is the image of what the other gives, and has the property. -/
def Image {V W : Type} (f : V → W) (P : W → Prop) (v : V) (w : W) : Prop :=
  f v = w ∧ P w

section Transport

variable {m : Type → Type} [Monad m] [MonadExceptOf Error m] [Observer m] [Faithful m]
variable {V W : Type} {f : V → W} {P : W → Prop}

theorem follows_required {name : String} {bound : Option V}
    (holds : ∀ w, bound.map f = some w → P w) :
    Follows (Image f P) (required name bound : m V) (required name (bound.map f)) := by
  cases bound with
  | none => exact Faithful.throw _
  | some v => exact Faithful.pure ⟨rfl, holds (f v) rfl⟩

theorem follows_iterate {R : V → W → Prop} {step : V → m V} {step' : W → Except Error W}
    (next : ∀ v w, R v w → Follows R (step v) (step' w)) {n : Nat} {v : V} {w : W}
    (start : R v w) : Follows R (iterate step n v) (iterate step' n w) := by
  induction n generalizing v w with
  | zero => exact Faithful.pure start
  | succ n ih => exact Faithful.bind (next v w start) fun _ _ _ related => ih related

/-- Whatever the operations make of images with the property is an image with the property. -/
def Transports (construct : Construction V → m V) (construct' : Construction W → Except Error W)
    (f : V → W) (P : W → Prop) : Prop :=
  ∀ c : Construction V, (∀ w ∈ (c.map f).values, P w) →
    Follows (Image f P) (construct c) (construct' (c.map f))

variable {construct : Construction V → m V} {construct' : Construction W → Except Error W}

namespace Transports

theorem of_value {x : m V} {y : Except Error W} {op : V → Construction V}
    {op' : W → Construction W} (transports : Transports construct construct' f P)
    (mapped : ∀ v, (op v).map f = op' (f v)) (values : ∀ w, (op' w).values = [w])
    (part : Follows (Image f P) x y) :
    Follows (Image f P) (do construct (op (← x))) (do construct' (op' (← y))) := by
  refine Faithful.bind part fun v w _ image => ?_
  obtain ⟨rfl, holds⟩ := image
  have next := transports (op v)
  rw [mapped, values] at next
  exact next (List.forall_mem_singleton.mpr holds)

theorem of_two_values {x x' : m V} {y y' : Except Error W} {op : V → V → Construction V}
    {op' : W → W → Construction W} (transports : Transports construct construct' f P)
    (mapped : ∀ v v', (op v v').map f = op' (f v) (f v'))
    (values : ∀ w w', (op' w w').values = [w, w'])
    (left : Follows (Image f P) x y) (right : Follows (Image f P) x' y') :
    Follows (Image f P) (do let v ← x; let v' ← x'; construct (op v v'))
      (do let w ← y; let w' ← y'; construct' (op' w w')) := by
  refine Faithful.bind left fun v w _ image => Faithful.bind right fun v' w' _ image' => ?_
  obtain ⟨rfl, holds⟩ := image
  obtain ⟨rfl, holds'⟩ := image'
  have next := transports (op v v')
  rw [mapped, values] at next
  exact next (List.forall_mem_cons.mpr ⟨holds, List.forall_mem_singleton.mpr holds'⟩)

end Transports

namespace Term

mutual

/-- If every operation takes images with a property to images with it, evaluations do. -/
theorem follows_evaluateWith (transports : Transports construct construct' f P) :
    ∀ (t : Term) {bindings : Bindings V}, (bindings.map f).All P →
      Follows (Image f P) (t.evaluateWith construct bindings)
        (t.evaluateWith construct' (bindings.map f))
  | integer n, bindings, bound => by
    rw [evaluateWith, evaluateWith]
    exact transports (.number n) (List.forall_mem_nil _)
  | literal text, bindings, bound => by
    rw [evaluateWith, evaluateWith]
    exact follows_bind (follows_ofExcept _) fun n _ =>
      transports (.number n) (List.forall_mem_nil _)
  | ratio n d, bindings, bound => by
    rw [evaluateWith, evaluateWith]
    exact follows_bind (follows_ofExcept _) fun q _ =>
      transports (.number q) (List.forall_mem_nil _)
  | symbol name, bindings, bound => by
    rw [evaluateWith, evaluateWith]
    exact transports (.symbol name) (List.forall_mem_nil _)
  | sum summands, bindings, bound => by
    rw [evaluateWith, evaluateWith]
    refine Faithful.bind (follows_evaluateAll transports summands bound) fun vs ws _ images => ?_
    obtain ⟨rfl, each⟩ := images
    exact transports (.sum vs) each
  | product operands, bindings, bound => by
    rw [evaluateWith, evaluateWith]
    refine Faithful.bind (follows_evaluateAll transports operands bound) fun vs ws _ images => ?_
    obtain ⟨rfl, each⟩ := images
    exact transports (.product vs) each
  | ratioOf a b, bindings, bound | power a b, bindings, bound | difference a b, bindings, bound
  | quotient a b, bindings, bound => by
    rw [evaluateWith, evaluateWith]
    exact transports.of_two_values (fun _ _ => rfl) (fun _ _ => rfl)
      (follows_evaluateWith transports a bound) (follows_evaluateWith transports b bound)
  | negation a, bindings, bound | absolute a, bindings, bound | sin a, bindings, bound
  | cos a, bindings, bound | apply _ a, bindings, bound | expansion a, bindings, bound
  | operand a _, bindings, bound | base a, bindings, bound | exponent a, bindings, bound => by
    rw [evaluateWith, evaluateWith]
    exact transports.of_value (fun _ => rfl) (fun _ => rfl)
      (follows_evaluateWith transports a bound)
  | formalDerivative a xs, bindings, bound => by
    rw [evaluateWith, evaluateWith]
    refine Faithful.bind (follows_evaluateWith transports a bound) fun v w _ image =>
      Faithful.bind (follows_evaluateAll transports xs bound) fun vs ws _ images => ?_
    obtain ⟨rfl, holds⟩ := image
    obtain ⟨rfl, each⟩ := images
    exact transports (.formalDerivative v vs) (List.forall_mem_cons.mpr ⟨holds, each⟩)
  | derivative a xs, bindings, bound => by
    rw [evaluateWith, evaluateWith]
    exact Faithful.bind (follows_evaluateWith transports a bound) fun v w _ image =>
      follows_differentiateAll transports xs bound image
  | substitution a pairs, bindings, bound => by
    rw [evaluateWith, evaluateWith]
    refine Faithful.bind (follows_evaluateWith transports a bound) fun v w _ image =>
      Faithful.bind (follows_evaluatePairs transports pairs bound) fun vs ws _ images => ?_
    obtain ⟨rfl, holds⟩ := image
    obtain ⟨rfl, each⟩ := images
    exact transports (.substitution v vs) (List.forall_mem_cons.mpr ⟨holds, each⟩)
  | reference name, bindings, bound => by
    rw [evaluateWith, evaluateWith]
    exact follows_required (bound.named name)
  | iteration n start step, bindings, bound => by
    rw [evaluateWith, evaluateWith]
    refine Faithful.bind (follows_evaluateWith transports start bound) fun v w _ image =>
      follows_iterate (fun v w related => ?_) image
    obtain ⟨rfl, holds⟩ := related
    exact follows_evaluateWith transports step (bound.withCurrent holds)
  | current, bindings, bound => by
    rw [evaluateWith, evaluateWith]
    exact follows_required bound.current

theorem follows_evaluateAll (transports : Transports construct construct' f P) :
    ∀ (ts : List Term) {bindings : Bindings V}, (bindings.map f).All P →
      Follows (fun vs ws => vs.map f = ws ∧ ∀ w ∈ ws, P w) (evaluateAll construct bindings ts)
        (evaluateAll construct' (bindings.map f) ts)
  | [], bindings, bound => by
    rw [evaluateAll, evaluateAll]
    exact Faithful.pure ⟨rfl, List.forall_mem_nil _⟩
  | t :: rest, bindings, bound => by
    rw [evaluateAll, evaluateAll]
    refine Faithful.bind (follows_evaluateWith transports t bound) fun v w _ image =>
      Faithful.bind (follows_evaluateAll transports rest bound) fun vs ws _ images => ?_
    obtain ⟨rfl, holds⟩ := image
    obtain ⟨rfl, each⟩ := images
    exact Faithful.pure ⟨rfl, List.forall_mem_cons.mpr ⟨holds, each⟩⟩

theorem follows_evaluatePairs (transports : Transports construct construct' f P) :
    ∀ (pairs : List (Term × Term)) {bindings : Bindings V}, (bindings.map f).All P →
      Follows (fun vs ws => vs.map (fun (k, r) => (f k, f r)) = ws ∧
          ∀ w ∈ ws.flatMap fun (k, r) => [k, r], P w)
        (evaluatePairs construct bindings pairs)
        (evaluatePairs construct' (bindings.map f) pairs)
  | [], bindings, bound => by
    rw [evaluatePairs, evaluatePairs]
    exact Faithful.pure ⟨rfl, List.forall_mem_nil _⟩
  | (k, r) :: rest, bindings, bound => by
    rw [evaluatePairs, evaluatePairs]
    refine Faithful.bind (follows_evaluateWith transports k bound) fun v w _ image =>
      Faithful.bind (follows_evaluateWith transports r bound) fun v' w' _ image' =>
        Faithful.bind (follows_evaluatePairs transports rest bound) fun vs ws _ images => ?_
    obtain ⟨rfl, holds⟩ := image
    obtain ⟨rfl, holds'⟩ := image'
    obtain ⟨rfl, each⟩ := images
    exact Faithful.pure ⟨rfl, List.forall_mem_cons.mpr ⟨holds, List.forall_mem_cons.mpr
      ⟨holds', each⟩⟩⟩

theorem follows_differentiateAll (transports : Transports construct construct' f P) :
    ∀ (ts : List Term) {bindings : Bindings V} {v : V} {w : W}, (bindings.map f).All P →
      Image f P v w → Follows (Image f P) (differentiateAll construct bindings v ts)
        (differentiateAll construct' (bindings.map f) w ts)
  | [], bindings, v, w, bound, image => by
    rw [differentiateAll, differentiateAll]
    exact Faithful.pure image
  | t :: rest, bindings, v, w, bound, image => by
    rw [differentiateAll, differentiateAll]
    refine Faithful.bind (follows_evaluateWith transports t bound) fun x x' _ variable_image => ?_
    obtain ⟨rfl, holds⟩ := image
    obtain ⟨rfl, variable_holds⟩ := variable_image
    have slope := transports (.derivative v x) (List.forall_mem_cons.mpr
      ⟨holds, List.forall_mem_singleton.mpr variable_holds⟩)
    exact Faithful.bind slope fun _ _ _ derived =>
      follows_differentiateAll transports rest bound derived

end

end Term

end Transport

end SymbolicAlgebra
