import SymbolicAlgebra.Node.Construction
import SymbolicAlgebra.Proofs.Scaling

namespace SymbolicAlgebra

open SymbolicAlgebra.Expr

namespace Node

@[simp]
theorem value_named (serial : Nat) (node : Node) : (node.named serial).value = node.value :=
  rfl

@[simp]
theorem value_new (e : Expr) (part? : Nat → Option Node) : (new e part?).value = e :=
  rfl

@[simp]
theorem value_leaf (e : Expr) : (leaf e).value = e :=
  rfl

@[simp]
theorem value_wrap (e : Expr) (argument : Node) : (wrap e argument).value = e :=
  rfl

theorem value_of_find {nodes : List Node} {e : Expr} {node : Node}
    (found : nodes.find? (fun node => node.value = e) = some node) : node.value = e := by
  simpa using List.find?_some found

@[simp]
theorem value_reuse (nodes : List Node) (e : Expr) : (reuse nodes e).value = e := by
  unfold reuse
  cases found : nodes.find? fun node => node.value = e with
  | none => rfl
  | some node => exact value_of_find found

@[simp]
theorem value_derived (source : Node) (e : Expr) : (source.derived e).value = e := by
  unfold derived
  split
  · rfl
  · rfl
  · rfl
  · rfl
  · exact value_reuse [source] e

@[simp]
theorem value_reshaped (node : Node) (e : Expr) : (node.reshaped e).value = e := by
  unfold reshaped
  split <;> rfl

@[simp]
theorem value_scale (q : Rat) (node : Node) : (node.scale q).value = node.value.scale q := by
  unfold scale
  split
  · rename_i one
    rw [one, scale_one]
  · split
    · exact value_reshaped ..
    · exact value_reshaped ..
    · exact value_reshaped ..
    · exact value_reshaped ..
    · rfl

@[simp]
theorem map_value_parts (node : Node) : node.parts.map value = node.value.parts := by
  refine List.ext_getElem (by simp [parts]) fun i _ _ => ?_
  simp [parts]

theorem value_product (operands : List Node) (e : Expr) : (product operands e).value = e := by
  unfold product
  dsimp only
  split
  · rfl
  · rfl
  · rfl
  · split
    · rename_i base found
      exact value_of_find found
    · rfl
  · exact value_reuse _ e

/-- A term that is left alone is the whole sum, with its multiplicity. -/
theorem value_sum (operands : List Node) {e : Expr} (canonical : e.Canonical) :
    (sum operands e).value = e := by
  unfold sum
  dsimp only
  split
  · rfl
  · rename_i other
    split
    · rename_i t q lone
      rw [value_scale, value_reuse]
      cases canonical.shape with
      | number r => cases lone
      | sum form each => exact absurd rfl (other _ _)
      | multiple nonzero kept =>
        rw [kept.termPart_withCoefficient nonzero] at lone
        cases lone
        rw [kept.scale_withCoefficient, mul_one]
    · rfl

theorem value_power {b x : Node} {e : Expr}
    (found : (SymbolicAlgebra.powerOf b.value x.value : Except Error Expr) = .ok e) :
    (power b x e).value = e := by
  unfold power
  split
  · rename_i one
    rw [isNumber_iff.mp one, powerOf_one] at found
    exact Except.ok.inj found
  · split
    · rfl
    · exact value_product [b] e

theorem value_power_ofFactor (b x : Node) :
    (power b x (ofFactor (b.value, x.value))).value = ofFactor (b.value, x.value) := by
  unfold power
  split
  · rename_i one
    exact (if_pos one).symm
  · split
    · rfl
    · exact value_product [b] _

/-- The parts of a product are read two by two, up to its coefficient. -/
theorem map_value_pairs {nodes : List Node} {factors : List Factor} {coefficient : Expr}
    (stored : nodes.map value = factors.flatMap (fun (b, e) => [b, e]) ++ [coefficient]) :
    ((pairs nodes).map fun pair => (pair.1.value, pair.2.value)) = factors := by
  induction factors generalizing nodes with
  | nil =>
    obtain ⟨last, rfl, _⟩ := List.map_eq_singleton_iff.mp stored
    rfl
  | cons factor rest ih =>
    obtain ⟨b, tail, rfl, first, stored⟩ := List.map_eq_cons_iff.mp stored
    obtain ⟨x, later, rfl, second, stored⟩ := List.map_eq_cons_iff.mp stored
    rw [pairs, List.map_cons, ih stored, first, second]

/-- The last part of a sum or a product is its constant or its coefficient. -/
theorem map_value_getLast? {nodes : List Node} {es : List Expr} {last : Expr}
    (stored : nodes.map value = es ++ [last]) : nodes.getLast?.toList.map value = [last] := by
  have whole := congrArg List.getLast? stored
  rw [List.getLast?_map, List.getLast?_concat] at whole
  obtain ⟨node, found, rfl⟩ := Option.map_eq_some_iff.mp whole
  rw [found]
  rfl

theorem zip_fst {α β : Type} (pairs : List (α × β)) (others : List α) :
    (pairs.map (·.1) ++ others).zip pairs = pairs.map fun pair => (pair.1, pair) := by
  induction pairs with
  | nil => exact List.zip_nil_right
  | cons pair rest ih => exact congrArg _ ih

theorem map_value_operands (node : Node) : node.operands.map value = node.value.operands := by
  obtain ⟨e, origin⟩ := node
  cases e with
  | number q => rfl
  | symbol name => rfl
  | sum constant terms =>
    have stored := map_value_parts ⟨.sum constant terms, origin⟩
    have paired : ((parts ⟨.sum constant terms, origin⟩).map value).zip terms =
        terms.map fun term => (term.1, term) := stored ▸ zip_fst terms [number constant]
    have scaled := congrArg (List.map fun part => part.1.scale part.2.2) paired
    rw [List.zip_map_left, List.map_map, List.map_map] at scaled
    have last := map_value_getLast? stored
    simp only [operands, Expr.operands, List.map_append, List.map_map, apply_ite (List.map value),
      last, List.map_nil]
    congr 1
    refine Eq.trans (List.map_congr_left fun part _ => ?_) scaled
    exact value_scale part.2.2 part.1
  | product coefficient factors =>
    have stored := map_value_parts ⟨.product coefficient factors, origin⟩
    have factored := congrArg (List.map ofFactor) (map_value_pairs stored)
    have last := map_value_getLast? stored
    rw [List.map_map] at factored
    simp only [operands, Expr.operands, List.map_append, List.map_map, apply_ite (List.map value),
      last, List.map_nil, partsOf, ← factored]
    congr 1
    exact List.map_congr_left fun pair _ => value_power_ofFactor pair.1 pair.2
  | power b x => rfl
  | sin a => rfl
  | cos a => rfl
  | apply name a => rfl
  | derivative a names => rfl

theorem value_toFactor (node : Node) :
    node.toFactor.1.value = node.value.toFactor.1 ∧
      node.toFactor.2.value = node.value.toFactor.2 := by
  obtain ⟨e, origin⟩ := node
  cases e <;> exact ⟨rfl, rfl⟩

end Node

end SymbolicAlgebra
