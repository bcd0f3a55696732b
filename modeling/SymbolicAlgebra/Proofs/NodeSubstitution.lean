import SymbolicAlgebra.Proofs.NodeValues
import SymbolicAlgebra.Proofs.Rebuilding
import SymbolicAlgebra.Proofs.SameOutcomes

namespace SymbolicAlgebra

open SymbolicAlgebra.Expr

section Images

variable {map : Substitution Expr}

/-- What a factor becomes, whether or not anything in it was found. -/
def factorImage (map : Substitution Expr) (factor : Factor) : Except Error Expr :=
  match map.find (ofFactor factor) with
  | some replacement => .ok replacement
  | none => do powerOf (← substitute map factor.1) (← substitute map factor.2)

theorem value_rewriteFactor_eq {b e : Expr} (factor : CanonicalFactor b e) :
    Part.value <$> rewriteFactor map (b, e) = factorImage map (b, e) := by
  rw [rewriteFactor, factorImage]
  cases map.find (ofFactor (b, e)) with
  | some replacement => rfl
  | none =>
    dsimp only
    rw [substitute_eq b, substitute_eq e]
    cases (rewrite map b : Except Error (Option Expr)) with
    | error cause => rfl
    | ok base =>
      cases (rewrite map e : Except Error (Option Expr)) with
      | error cause => rfl
      | ok exponent =>
        exact (Functor.map_map _ Part.value _).trans (@getD_rebuildPair _ powerOf (ofFactor (b, e))
          ⟨b, base⟩ ⟨e, exponent⟩ (powerOf_of_canonicalFactor factor))

/-- A product that is listed neither with its coefficient nor without is substituted factor by
factor. -/
theorem substitute_product_images {q : Rat} {factors : List Factor}
    (canonical : (product q factors).Canonical) (unlisted : map.find (product q factors) = none)
    (rest : q ≠ 1 → map.find (withCoefficient 1 factors) = none) :
    (substitute map (product q factors) : Except Error Expr) = (do
      let images ← factors.mapM (factorImage map)
      productOf ((numberParts map 1 q).map Part.value ++ images)) := by
  have kept := (canonical_product_iff.mp canonical).2.2
  have images : factors.mapM (factorImage map) =
      List.map Part.value <$> factors.mapM (rewriteFactor map) := by
    rw [← mapM_map_result]
    exact mapM_congr fun factor stored =>
      (value_rewriteFactor_eq (kept.factor factor.1 factor.2 stored)).symm
  rw [substitute_eq, rewrite_product unlisted rest, images]
  cases rewritten : factors.mapM (rewriteFactor map) with
  | error cause => rfl
  | ok parts =>
    have before : parts.map Part.before = factors.map ofFactor :=
      map_eq_map_of_mapM rewritten fun factor _ part found => before_rewriteFactor found
    refine (getD_rebuild ?_).trans ?_
    · rw [List.map_append, before, before_numberParts]
      exact productOf_operands canonical
    · rw [List.map_append]
      rfl

/-- A sum that is not listed is substituted term by term. -/
theorem substitute_sum_images {constant : Rat} {terms : List Multiple}
    (canonical : (sum constant terms).Canonical)
    (unlisted : map.find (sum constant terms) = none) :
    (substitute map (sum constant terms) : Except Error Expr) = (do
      let images ← terms.mapM fun term => substitute map (term.1.scale term.2)
      summed (images ++ (numberParts map 0 constant).map Part.value)) := by
  rw [substitute_sum canonical unlisted, operands_sum, List.mapM_append, List.mapM_map,
    Function.comp_def, mapM_substitute_constantSummands]
  cases (terms.mapM fun term => substitute map (term.1.scale term.2) :
      Except Error (List Expr)) with
  | error cause => rfl
  | ok images => rfl

/-- A function is substituted in its argument. -/
theorem substitute_function {f : Expr → Expr} {a e : Expr}
    (rule : (rewrite map e : Except Error (Option Expr)) = Option.map f <$> rewrite map a)
    (built : f a = e) :
    (substitute map e : Except Error Expr) = f <$> (substitute map a : Except Error Expr) := by
  rw [substitute_eq, rule, substitute_eq, Functor.map_map, Functor.map_map]
  refine congrArg (· <$> (rewrite map a : Except Error (Option Expr))) (funext fun after => ?_)
  cases after with
  | none => exact built.symm
  | some r => rfl

theorem substitute_derivative_eq {a : Expr} {names : List String}
    (unlisted : map.find (derivative a names) = none) :
    (substitute map (derivative a names) : Except Error Expr) = (do
      let renamed ← names.mapM (rename map)
      (fun target => derivative target renamed) <$> (substitute map a : Except Error Expr)) := by
  rw [substitute_eq, rewrite_derivative unlisted, substitute_eq]
  cases (names.mapM (rename map) : Except Error (List String)) with
  | error cause => rfl
  | ok renamed =>
    cases (rewrite map a : Except Error (Option Expr)) with
    | error cause => rfl
    | ok after =>
      refine congrArg Except.ok ?_
      dsimp only
      split
      · rename_i unchanged
        rw [Option.isNone_iff_eq_none.mp unchanged.1, unchanged.2]
        rfl
      · rfl

end Images

namespace Node

/-- A node whose value is the expression. -/
def Shows (node : Node) (e : Expr) : Prop :=
  node.value = e

/-- What an expression is changed to, or the expression if it is not changed. -/
def Becomes (e : Expr) (after : Option Node) (r : Expr) : Prop :=
  (after.map value).getD e = r

/-- A part of which it is known what it was and what it has become. -/
def Turns (part : Part Node) (before after : Expr) : Prop :=
  part.before.value = before ∧ part.value.value = after

/-- The substitution with the values of its nodes. -/
def shown (map : Substitution Node) : Substitution Expr :=
  map.map fun (key, replacement) => (key, replacement.value)

theorem find_shown (map : Substitution Node) (e : Expr) :
    (shown map).find e = (map.find e).map value := by
  simp only [shown, Substitution.find, List.find?_map, Option.map_map]
  rfl

theorem value_of_isSame {a b : Node} (same : a.isSame b = true) : a.value = b.value :=
  of_decide_eq_true (Bool.and_eq_true_iff.mp same).1

/-- Only what is no longer the same node counts as changed; the others have the same value. -/
theorem Becomes.filter {e r : Expr} {after : Option Node} (becomes : Becomes e after r)
    (origin : Origin) : Becomes e (after.filter fun node => !node.isSame ⟨e, origin⟩) r := by
  cases after with
  | none => exact becomes
  | some node =>
    cases same : node.isSame ⟨e, origin⟩ with
    | false => simpa [same, Option.filter] using becomes
    | true =>
      have unchanged : e = r := (value_of_isSame same).symm.trans becomes
      simpa [same, Option.filter, Becomes] using unchanged

theorem Becomes.turns {e r : Expr} {before : Node} {after : Option Node}
    (becomes : Becomes e after r) (was : before.value = e) : Turns ⟨before, after⟩ e r := by
  refine ⟨was, Eq.trans ?_ becomes⟩
  cases after with
  | none => exact was
  | some node => rfl

/-- Numbers are looked up and not taken apart. -/
theorem turns_number (map : Substitution Node) (q : Rat) (origin : Origin) :
    Turns ⟨⟨number q, origin⟩, map.find (number q)⟩ (number q)
      (((shown map).find (number q)).getD (number q)) :=
  Becomes.turns (congrArg (Option.getD · (number q)) (find_shown map (number q)).symm) rfl

/-- The number beside other parts, unless it is the neutral one, becomes what it becomes among
values. -/
theorem map_numbers (map : Substitution Node) (neutral q : Rat) (origin : Origin) :
    (if q = neutral then [] else [⟨⟨number q, origin⟩, map.find (number q)⟩] :
        List (Part Node)).map (·.before.value) =
          (numberParts (shown map) neutral q).map Part.before ∧
      (if q = neutral then [] else [⟨⟨number q, origin⟩, map.find (number q)⟩] :
        List (Part Node)).map (·.value.value) =
          (numberParts (shown map) neutral q).map Part.value := by
  unfold numberParts
  split
  · exact ⟨rfl, rfl⟩
  · exact ⟨rfl, congrArg (fun e => [e]) (turns_number map q origin).2⟩

section Steps

variable {m : Type → Type} [Monad m] [MonadExceptOf Error m] [Observer m] [Faithful m] [LawfulMonad m]

theorem follows_make (node : Node) :
    Follows Shows (make node : StateT Nat m Node) (.ok node.value) := by
  intro serial
  have made : (make node : StateT Nat m Node).run serial =
      pure (node.named serial, serial + 1) := by simp [make]
  rw [made]
  exact Faithful.pure rfl

/-- A node that is made for the outcome of a computation with values. -/
theorem follows_made {x : StateT Nat m Expr} {y : Except Error Expr} {build : Expr → Node}
    (first : Follows Eq x y) (shows : ∀ e, y = .ok e → (build e).value = e) :
    Follows Shows (do make (build (← x))) y := by
  rw [← bind_pure y]
  refine follows_bind first fun e found => ?_
  have made := @follows_make m _ _ _ _ _ (build e)
  rwa [shows e found] at made

theorem follows_summed {nodes : List Node} (canonical : ∀ e ∈ nodes.map value, e.Canonical) :
    Follows Shows (summed nodes : StateT Nat m Node) (SymbolicAlgebra.summed (nodes.map value)) :=
  follows_made (SymbolicAlgebra.follows_summed _) fun _ found =>
    value_sum nodes (canonical_summed found canonical)

theorem follows_productOf (nodes : List Node) : Follows Shows (productOf nodes : StateT Nat m Node)
    (SymbolicAlgebra.productOf (nodes.map value)) :=
  follows_made (SymbolicAlgebra.follows_productOf _) fun e _ => value_product nodes e

theorem follows_powerOf (b x : Node) : Follows Shows (powerOf b x : StateT Nat m Node)
    (SymbolicAlgebra.powerOf b.value x.value) :=
  follows_made (SymbolicAlgebra.follows_powerOf _ _) fun _ found => value_power found

theorem follows_some {x : StateT Nat m Node} {y : Except Error Expr} (e : Expr)
    (follows : Follows Shows x y) : Follows (Becomes e) (some <$> x) y := by
  rw [← id_map y]
  exact follows_map follows fun _ _ _ shows => shows

variable {e : Expr}

/-- What is not built again would come out as it is. -/
theorem follows_rebuild {parts : List (Part Node)} {build : List Node → StateT Nat m Node}
    {plain : List Expr → Except Error Expr} {after : List Expr}
    (is : parts.map (·.value.value) = after)
    (built : Follows Shows (build (parts.map Part.value)) (plain ((parts.map Part.value).map value)))
    (same : plain (parts.map (·.before.value)) = .ok e) :
    Follows (Becomes e) (rebuild parts build) (plain after) := by
  have values : (parts.map Part.value).map value = after := (List.map_map ..).trans is
  unfold rebuild
  split
  · rw [← values]
    exact follows_some e built
  · rename_i unchanged
    have kept : parts.map (·.before.value) = after := by
      rw [← is]
      refine List.map_congr_left fun part member => congrArg value ?_
      exact (Part.value_of_not_isChanged fun changed =>
        unchanged (List.any_eq_true.mpr ⟨part, member, changed⟩)).symm
    rw [← kept, same]
    exact Faithful.pure rfl

theorem follows_rebuildPair {first second : Part Node} {b x b' x' : Expr} (base : Turns first b b')
    (exponent : Turns second x x')
    (same : (SymbolicAlgebra.powerOf b x : Except Error Expr) = .ok e) :
    Follows (Becomes e) (rebuildPair first second powerOf : StateT Nat m (Option Node))
      (SymbolicAlgebra.powerOf b' x') := by
  unfold rebuildPair
  split
  · rw [← base.2, ← exponent.2]
    exact follows_some e (follows_powerOf first.value second.value)
  · rename_i unchanged
    rw [Bool.or_eq_true, not_or] at unchanged
    have base_same := congrArg value (Part.value_of_not_isChanged unchanged.1)
    have exponent_same := congrArg value (Part.value_of_not_isChanged unchanged.2)
    rw [← base.2, ← exponent.2, base_same, exponent_same, base.1, exponent.1, same]
    exact Faithful.pure rfl

/-- The parts of a whole, one by one. -/
theorem follows_parts {α β : Type} {f : α → StateT Nat m (Part Node)} {g : β → Except Error Expr}
    (before : β → Expr) {as : List α} {bs : List β}
    (each : List.Forall₂ (fun a b => Follows (fun part => Turns part (before b)) (f a) (g b)) as bs) :
    Follows (fun parts images => parts.map (·.before.value) = bs.map before ∧
      parts.map (·.value.value) = images) (as.mapM f) (bs.mapM g) := by
  induction each with
  | nil =>
    rw [List.mapM_nil, List.mapM_nil]
    exact Faithful.pure ⟨rfl, rfl⟩
  | cons first _ ih =>
    rw [List.mapM_cons, List.mapM_cons]
    refine Faithful.bind first fun part image _ here => Faithful.bind ih fun parts images _ later => ?_
    refine Faithful.pure ⟨?_, ?_⟩
    · rw [List.map_cons, List.map_cons, here.1, later.1]
    · rw [List.map_cons, here.2, later.2]

end Steps

theorem forall₂_attach_zipIdx {α : Type} {as : List α} {R : { a // a ∈ as } × Nat → α → Prop}
    (each : ∀ a (member : a ∈ as) i, R (⟨a, member⟩, i) a) :
    List.Forall₂ R as.attach.zipIdx as := by
  have erased : as.attach.zipIdx.map (·.1.1) = as := by
    have places := congrArg (List.map Subtype.val) (List.zipIdx_map_fst 0 as.attach)
    rwa [List.map_map, List.attach_map_subtype_val] at places
  have related : List.Forall₂ R as.attach.zipIdx (as.attach.zipIdx.map (·.1.1)) :=
    List.forall₂_map_right_iff.mpr (List.forall₂_same.mpr fun place _ =>
      each place.1.1 place.1.2 place.2)
  rwa [erased] at related

theorem find_eq_none_of_shown {map : Substitution Node} {e : Expr}
    (unlisted : (shown map).find e = none) : map.find e = none :=
  Option.map_eq_none_iff.mp ((find_shown map e).symm.trans unlisted)

section Rewrite

variable {m : Type → Type} [Monad m] [MonadExceptOf Error m] [Observer m] [Faithful m]

theorem follows_rename {map : Substitution Expr} (name : String) :
    Follows Eq (rename map name : m String) (rename map name) := by
  unfold rename
  split
  · exact Faithful.pure rfl
  · split
    · exact Faithful.pure rfl
    · exact Faithful.throw _

theorem follows_filtered {e : Expr} (origin : Origin) {x : StateT Nat m (Option Node)}
    {y : Except Error Expr} (follows : Follows (Becomes e) x y) :
    Follows (Becomes e) (do
      let changed ← x
      return changed.filter fun node => !node.isSame ⟨e, origin⟩) y := by
  rw [← bind_pure y]
  exact Faithful.bind follows fun _ _ _ becomes => Faithful.pure (becomes.filter origin)

variable [LawfulMonad m]

/-- Functions of an argument are made again if the argument has changed. -/
theorem follows_wrapped {f : Expr → Expr} {a e : Expr} {after : Option Node} {r : Expr}
    (becomes : Becomes a after r) (built : f a = e) :
    Follows (Becomes e) (after.mapM fun node => make (wrap (f node.value) node) :
      StateT Nat m (Option Node)) (.ok (f r)) := by
  cases after with
  | none =>
    rw [Option.mapM_none]
    exact Faithful.pure (built.symm.trans (congrArg f becomes))
  | some node =>
    rw [Option.mapM_some]
    cases becomes
    exact follows_some e (follows_make _)

variable (m) in
/-- What is found among nodes is found among their values, and becomes the same there. -/
def RewrittenAlike (map : Substitution Node) (e : Expr) : Prop :=
  ∀ origin, Follows (Becomes e) (rewrite map e origin : StateT Nat m (Option Node))
    (SymbolicAlgebra.substitute (shown map) e)

variable {map : Substitution Node}

omit [LawfulMonad m] in
/-- A term with its multiplicity is a part of a sum. -/
theorem follows_rewriteTerm {t : Expr} {q : Rat} (alike : RewrittenAlike m map (t.scale q))
    (origin : Origin) :
    Follows (fun part => Turns part (t.scale q)) (do
        let scaled := scale q ⟨t, origin⟩
        return ⟨scaled, ← rewrite map (t.scale q) scaled.origin⟩ : StateT Nat m (Part Node))
      (SymbolicAlgebra.substitute (shown map) (t.scale q)) := by
  rw [← bind_pure (SymbolicAlgebra.substitute _ _)]
  exact Faithful.bind (alike _) fun _ _ _ becomes =>
    Faithful.pure (becomes.turns (value_scale q ⟨t, origin⟩))

/-- A factor is looked up as a whole before its base and its exponent. -/
theorem follows_rewriteFactor {b x : Expr} (factor : CanonicalFactor b x)
    (base_alike : RewrittenAlike m map b) (exponent_alike : RewrittenAlike m map x)
    (base exponent : Origin) :
    Follows (fun part => Turns part (ofFactor (b, x))) (do
        let whole := power ⟨b, base⟩ ⟨x, exponent⟩ (ofFactor (b, x))
        match map.find (ofFactor (b, x)) with
        | some replacement => return ⟨whole, some replacement⟩
        | none =>
          let b' ← rewrite map b base
          let x' ← rewrite map x exponent
          return ⟨whole, ← rebuildPair ⟨⟨b, base⟩, b'⟩ ⟨⟨x, exponent⟩, x'⟩ powerOf⟩ :
          StateT Nat m (Part Node))
      (factorImage (shown map) (b, x)) := by
  have whole := value_power_ofFactor ⟨b, base⟩ ⟨x, exponent⟩
  dsimp only
  rw [factorImage, find_shown]
  cases map.find (ofFactor (b, x)) with
  | some node => exact Faithful.pure ⟨whole, rfl⟩
  | none =>
    refine Faithful.bind (base_alike base) fun b' rb _ base_becomes =>
      Faithful.bind (exponent_alike exponent) fun x' rx _ exponent_becomes => ?_
    rw [← bind_pure (SymbolicAlgebra.powerOf rb rx)]
    refine Faithful.bind (follows_rebuildPair (base_becomes.turns rfl) (exponent_becomes.turns rfl)
      (powerOf_of_canonicalFactor factor)) fun _ _ _ becomes => ?_
    exact Faithful.pure (becomes.turns whole)

theorem rewrittenAlike_sum (replacements : (shown map).Canonical) {constant : Rat}
    {terms : List Multiple} (canonical : (Expr.sum constant terms).Canonical)
    (found : map.find (Expr.sum constant terms) = none)
    (each : ∀ t q, (t, q) ∈ terms → RewrittenAlike m map (t.scale q)) :
    RewrittenAlike m map (Expr.sum constant terms) := by
  intro origin
  have unlisted : (shown map).find (Expr.sum constant terms) = none := by
    rw [find_shown, found, Option.map_none]
  obtain ⟨was, is⟩ := map_numbers map 0 constant (origin.part terms.length)
  rw [rewrite.eq_def, found, substitute_sum_images canonical unlisted]
  refine Faithful.bind (follows_parts (fun term => term.1.scale term.2)
    (forall₂_attach_zipIdx fun term stored i =>
      follows_rewriteTerm (each term.1 term.2 stored) (origin.part i)))
    fun parts images substituted turned => follows_filtered origin ?_
  have operands : ∀ e ∈ images ++ (numberParts (shown map) 0 constant).map Part.value,
      e.Canonical := by
    refine List.forall_mem_append.mpr ⟨fun e member => ?_, List.forall_mem_map.mpr fun _ member => ?_⟩
    · obtain ⟨term, stored, image⟩ := exists_of_mem_mapM substituted member
      have operand : (term.1.scale term.2).Canonical :=
        canonical_operands canonical _ (List.mem_append_left _ (List.mem_map_of_mem stored))
      exact canonical_substitute replacements image operand
    · obtain ⟨_, rfl⟩ := of_mem_numberParts member
      exact canonical_substitute replacements (substitute_number constant) (canonical_number constant)
  have values := (List.map_append ..).trans (congrArg₂ (· ++ ·) turned.2 is)
  refine follows_rebuild values (follows_summed ?_) ?_
  · rw [List.map_map]
    exact fun e member => operands e (values ▸ member)
  · rw [List.map_append, turned.1, was, before_constantParts]
    exact congrArg Except.ok (sumOf_operands canonical)

theorem rewrittenAlike_product {q : Rat} {factors : List Factor}
    (canonical : (Expr.product q factors).Canonical)
    (found : map.find (Expr.product q factors) = none)
    (bases : ∀ b x, (b, x) ∈ factors → RewrittenAlike m map b)
    (exponents : ∀ b x, (b, x) ∈ factors → RewrittenAlike m map x) :
    RewrittenAlike m map (Expr.product q factors) := by
  intro origin
  have unlisted : (shown map).find (Expr.product q factors) = none := by
    rw [find_shown, found, Option.map_none]
  have kept := (canonical_product_iff.mp canonical).2.2
  rw [rewrite.eq_def, found]
  dsimp only
  rcases (shown map).rest_cases q (withCoefficient 1 factors) with ⟨scaled, r, listed⟩ | rest
  · -- The product is listed without its coefficient, which is looked up on its own then.
    have coefficient := (turns_number map q (origin.part (2 * factors.length))).2
    rw [substitute_eq, rewrite_product_of_rest unlisted scaled listed, Functor.map_map,
      ← coefficient]
    rw [find_shown] at listed
    obtain ⟨node, found_rest, rfl⟩ := Option.map_eq_some_iff.mp listed
    rw [if_neg scaled, found_rest]
    exact follows_unobserved (follows_filtered origin (follows_map (follows_productOf _)
      fun _ _ _ shows => shows))
  · have absent : (if q = 1 then none else map.find (withCoefficient 1 factors)) = none := by
      split
      · rfl
      · rename_i scaled
        exact find_eq_none_of_shown (rest scaled)
    obtain ⟨was, is⟩ := map_numbers map 1 q (origin.part (2 * factors.length))
    rw [absent, substitute_product_images canonical unlisted rest]
    refine Faithful.bind (follows_parts ofFactor (forall₂_attach_zipIdx fun factor stored i =>
      follows_rewriteFactor (kept.factor factor.1 factor.2 stored) (bases _ _ stored)
        (exponents _ _ stored) _ _)) fun parts images _ turned => follows_filtered origin ?_
    refine follows_rebuild ?_ (follows_productOf _) ?_
    · rw [List.map_append, turned.2, is]
    · rw [List.map_append, turned.1, was, before_numberParts]
      exact productOf_operands canonical

/-- Whether it is found or not, what is met while nodes are rewritten is met among their values. -/
theorem rewrittenAlike_of_canonical (replacements : (shown map).Canonical) :
    ∀ {e : Expr}, e.Canonical → RewrittenAlike m map e
  | e, canonical => by
    cases found : map.find e with
    | some node =>
      intro origin
      have listed : (shown map).find e = some node.value := by
        rw [find_shown, found, Option.map_some]
      rw [rewrite.eq_def, found, substitute_of_find listed]
      exact follows_unobserved (follows_filtered origin (Faithful.pure rfl))
    | none =>
      have unlisted : (shown map).find e = none := by rw [find_shown, found, Option.map_none]
      cases canonical with
      | number form =>
        intro origin
        rw [rewrite.eq_def, found, substitute_number, unlisted]
        exact follows_filtered origin (Faithful.pure rfl)
      | symbol name =>
        intro origin
        rw [rewrite.eq_def, found, substitute_eq, rewrite_symbol unlisted]
        exact follows_filtered origin (Faithful.pure rfl)
      | sum form each =>
        exact rewrittenAlike_sum replacements (.sum form each) found fun t q stored =>
          rewrittenAlike_of_canonical replacements ((each t q stored).scale q)
      | product form bases exponents =>
        exact rewrittenAlike_product (.product form bases exponents) found
          (fun b x stored => rewrittenAlike_of_canonical replacements (bases b x stored))
          fun b x stored => rewrittenAlike_of_canonical replacements (exponents b x stored)
      | power form base exponent =>
        intro origin
        rw [rewrite.eq_def, found, substitute_power form unlisted]
        refine Faithful.bind (rewrittenAlike_of_canonical replacements base _)
          fun _ _ _ base_becomes =>
            Faithful.bind (rewrittenAlike_of_canonical replacements exponent _)
              fun _ _ _ exponent_becomes => follows_filtered origin ?_
        exact follows_rebuildPair (base_becomes.turns rfl) (exponent_becomes.turns rfl)
          (powerOf_of_canonicalPower form)
      | @sin a form argument =>
        intro origin
        have built : sineOf a = Expr.sin a := if_neg (mt isNumber_iff.mp form)
        rw [rewrite.eq_def, found, substitute_function (rewrite_sin unlisted) built,
          map_eq_pure_bind]
        exact Faithful.bind (rewrittenAlike_of_canonical replacements argument _)
          fun _ _ _ becomes => follows_filtered origin (follows_wrapped becomes built)
      | @cos a form argument =>
        intro origin
        have built : cosineOf a = Expr.cos a := if_neg (mt isNumber_iff.mp form)
        rw [rewrite.eq_def, found, substitute_function (rewrite_cos unlisted) built,
          map_eq_pure_bind]
        exact Faithful.bind (rewrittenAlike_of_canonical replacements argument _)
          fun _ _ _ becomes => follows_filtered origin (follows_wrapped becomes built)
      | apply argument =>
        intro origin
        rw [rewrite.eq_def, found, substitute_function (rewrite_apply unlisted) rfl,
          map_eq_pure_bind]
        exact Faithful.bind (rewrittenAlike_of_canonical replacements argument _)
          fun _ _ _ becomes => follows_filtered origin (follows_wrapped becomes rfl)
      | @derivative a names form target =>
        intro origin
        rw [rewrite.eq_def, found, substitute_derivative_eq unlisted]
        have others : Follows Eq (names.mapM (rename (shown map)) : StateT Nat m (List String))
            (names.mapM (rename (shown map))) := follows_mapM_eq fun name _ => follows_rename name
        refine follows_bind others fun renamed _ => ?_
        rw [map_eq_pure_bind]
        refine Faithful.bind (rewrittenAlike_of_canonical replacements target _)
          fun after r _ becomes => ?_
        dsimp only
        split
        · rename_i unchanged
          rw [Option.isNone_iff_eq_none.mp unchanged.1] at becomes
          exact follows_filtered origin
            (Faithful.pure (congrArg₂ Expr.derivative becomes unchanged.2.symm))
        · have value : (after.getD ⟨a, origin.part 0⟩).value = r := (becomes.turns rfl).2
          rw [value]
          exact follows_filtered origin (follows_some _ (follows_make _))
termination_by e => e.size
decreasing_by
  · have := size_term_lt stored
    have := size_scale_le q t
    simp only [size]
    omega
  iterate 2
    have := size_factor_lt stored
    simp only [size]
    omega
  all_goals
    simp only [size]
    omega

/-- The node that a substitution makes of a node shows what it makes of the value. So it makes no
difference that what is replaced by another node with the same value counts as changed among nodes,
and not among values. -/
theorem follows_substitute (replacements : (shown map).Canonical) {node : Node}
    (canonical : node.value.Canonical) :
    Follows Shows (substitute map node : StateT Nat m Node)
      (SymbolicAlgebra.substitute (shown map) node.value) := by
  unfold substitute
  split
  · rename_i empty
    have nothing : (shown map).isEmpty = true := List.isEmpty_map.trans empty
    rw [SymbolicAlgebra.substitute, if_pos nothing]
    exact Faithful.pure rfl
  · rw [← bind_pure (SymbolicAlgebra.substitute _ _)]
    exact Faithful.bind (rewrittenAlike_of_canonical replacements canonical node.origin)
      fun after r _ becomes => Faithful.pure (becomes.turns rfl).2

end Rewrite

end Node

end SymbolicAlgebra
