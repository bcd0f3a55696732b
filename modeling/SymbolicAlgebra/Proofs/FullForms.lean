import SymbolicAlgebra.Proofs.LegibleTexts
import SymbolicAlgebra.Proofs.Rebuilding

namespace SymbolicAlgebra

open SymbolicAlgebra.Expr

/-- The names that nodes other than functions have in the full form. -/
def nodeNames : List String :=
  ["Add", "Mul", "Pow", "Sin", "Cos", "Derivative"]

theorem isWord_of_mem_nodeNames : ∀ name ∈ nodeNames, isWord name := by
  decide

namespace Expr

/-- What the full form starts with: the name of the node, or all of it if there is no bracket. -/
def label : Expr → String
  | number q => numberText q
  | symbol name => name
  | sum _ _ => "Add"
  | product _ _ => "Mul"
  | power _ _ => "Pow"
  | sin _ => "Sin"
  | cos _ => "Cos"
  | apply name _ => name
  | derivative _ _ => "Derivative"

/-- What the full form lists in brackets, if it has any. A derivative lists its variables too. -/
def entries : Expr → Option (List Expr)
  | number _ => none
  | symbol _ => none
  | derivative a names => some (a :: names.map symbol)
  | e => some e.operands

/-- The node with this name over these operands. -/
def ofEntries (name : String) (parts : List Expr) : Option Expr :=
  if name = "Add" then some (sumOf parts)
  else if name = "Mul" then (productOf parts : Except Error Expr).toOption
  else match parts with
    | [] => none
    | a :: others =>
      if name = "Pow" then others.head?.map (power a)
      else if name = "Sin" then some (sin a)
      else if name = "Cos" then some (cos a)
      else if name = "Derivative" then some (derivative a (others.filterMap symbol?))
      else some (apply name a)

theorem fullForm_of_leaf {e : Expr} (leaf : e.entries = none) : e.fullForm = e.label := by
  cases e with
  | number q => rw [fullForm, label]
  | symbol name => rw [fullForm, label]
  | _ => cases leaf

theorem fullForm_of_node {e : Expr} {parts : List Expr} (node : e.entries = some parts) :
    e.fullForm = nodeText e.label (parts.map fullForm) := by
  cases e with
  | number q => cases node
  | symbol name => cases node
  | derivative a names =>
    cases node
    have leaves : (names.map symbol).map fullForm = names := by
      rw [List.map_map]
      refine (List.map_congr_left fun name _ => ?_).trans (List.map_id names)
      exact fullForm_of_leaf rfl
    rw [fullForm, List.map_cons, leaves, label]
  | _ =>
    cases node
    rw [fullForm]
    simp [operands, label]

theorem size_entry_lt {e part : Expr} {parts : List Expr} (node : e.entries = some parts)
    (member : part ∈ parts) : part.size < e.size := by
  cases e with
  | number q => cases node
  | symbol name => cases node
  | derivative a names =>
    cases node
    have positive := a.size_pos
    rcases List.mem_cons.mp member with rfl | member
    · simp only [size]
      omega
    · obtain ⟨name, _, rfl⟩ := List.mem_map.mp member
      simp only [size]
      omega
  | _ =>
    cases node
    exact size_operand_lt member

end Expr

namespace Expr.Readable

variable {e : Expr} {parts : List Expr} (readable : e.Readable nodeNames)

include readable

theorem entry (node : e.entries = some parts) : ∀ part ∈ parts, part.Readable nodeNames := by
  intro part member
  obtain ⟨canonical, named⟩ := readable
  have of_operand (inside : part ∈ e.operands) : part.Readable nodeNames :=
    ⟨canonical_operands canonical part inside, named_operands named part inside⟩
  cases named with
  | number q => cases node
  | symbol allowed => cases node
  | derivative allowed target =>
    cases node
    rcases List.mem_cons.mp member with rfl | member
    · exact of_operand (List.mem_singleton_self _)
    · obtain ⟨name, inside, rfl⟩ := List.mem_map.mp member
      exact ⟨.symbol name, .symbol (allowed name inside)⟩
  | _ =>
    cases node
    exact of_operand member

theorem entries_ne_nil (node : e.entries = some parts) : parts ≠ [] := by
  cases readable.canonical with
  | number form => cases node
  | symbol name => cases node
  | sum form each =>
    cases node
    refine List.append_ne_nil_of_left_ne_nil ?_ _
    exact mt List.map_eq_nil_iff.mp form.nonempty
  | product form bases exponents =>
    cases node
    refine List.append_ne_nil_of_right_ne_nil _ ?_
    exact mt List.map_eq_nil_iff.mp form.nonempty
  | _ =>
    cases node
    exact List.cons_ne_nil _ _

/-- Every node can be built again from its name and what is in its brackets. -/
theorem ofEntries_label (node : e.entries = some parts) : ofEntries e.label parts = some e := by
  obtain ⟨canonical, named⟩ := readable
  cases named with
  | number q => cases node
  | symbol allowed => cases node
  | sum each =>
    cases node
    exact congrArg some (sumOf_operands canonical)
  | product bases exponents =>
    cases node
    exact congrArg Except.toOption (productOf_operands canonical)
  | derivative allowed target =>
    cases node
    have names (given : List String) : (given.map symbol).filterMap symbol? = given := by
      rw [List.filterMap_map]
      exact List.filterMap_some
    exact congrArg (fun given => some (derivative _ given)) (names _)
  | @apply name a allowed argument =>
    cases node
    obtain ⟨add, mul, pow, sin, cos, derivative⟩ : name ≠ "Add" ∧ name ≠ "Mul" ∧ name ≠ "Pow" ∧
        name ≠ "Sin" ∧ name ≠ "Cos" ∧ name ≠ "Derivative" := by
      simpa [nodeNames] using allowed.2
    simp only [label, operands, ofEntries, add, mul, pow, sin, cos, derivative, if_false]
  | _ =>
    cases node
    rfl

theorem label_parts : ∀ c ∈ e.label.toList, isLabelPart c := by
  intro c member
  cases readable.named with
  | number q => exact isLabelPart_of_number member
  | symbol allowed => exact isLabelPart_of_word allowed member
  | apply allowed argument => exact isLabelPart_of_word allowed.1 member
  | _ => exact isLabelPart_of_word (isWord_of_mem_nodeNames _ (by simp [label, nodeNames])) member

theorem leafText (leaf : e.entries = none) : LeafText e e.label := by
  cases readable.named with
  | number q => exact .number q
  | symbol allowed => exact .symbol allowed
  | _ => cases leaf

end Expr.Readable

/-- What may follow an operand in the text of a node. -/
def EndsEntry (rest : List Char) : Prop :=
  ∀ c ∈ rest.head?, c = ',' ∨ c = ']'

/-- What may follow a label: a bracket opens, or what may follow an operand. -/
def EndsLabel (rest : List Char) : Prop :=
  ∀ c ∈ rest.head?, c = '[' ∨ c = ',' ∨ c = ']'

theorem EndsEntry.endsLabel {rest : List Char} (ends : EndsEntry rest) : EndsLabel rest :=
  fun c head => .inr (ends c head)

theorem not_endsEntry_bracket (rest : List Char) : ¬ EndsEntry ('[' :: rest) := by
  simp [EndsEntry]

theorem endsLabel_bracket (rest : List Char) : EndsLabel ('[' :: rest) := by
  simp [EndsLabel]

/-- Where a label ends can be seen from the text. -/
theorem label_inj {a b : Expr} {rest rest' : List Char} (left : a.Readable nodeNames)
    (right : b.Readable nodeNames) (ends : EndsLabel rest) (ends' : EndsLabel rest')
    (same : a.label.toList ++ rest = b.label.toList ++ rest') :
    a.label = b.label ∧ rest = rest' := by
  have stops {text : List Char} (ends : EndsLabel text) : ∀ c ∈ text.head?, ¬ isLabelPart c := by
    intro c head
    rcases ends c head with rfl | rfl | rfl <;> decide
  obtain ⟨labels, rests⟩ :=
    append_inj_of_forall left.label_parts right.label_parts (stops ends) (stops ends') same
  exact ⟨String.toList_injective labels, rests⟩

/-- The rest of a list of operands, and the text after it. -/
def closing (parts : List Expr) (rest : List Char) : List Char :=
  parts.flatMap (fun part => ',' :: ' ' :: part.fullForm.toList) ++ ']' :: rest

theorem toList_fullForm_of_node {e part : Expr} {parts : List Expr}
    (node : e.entries = some (part :: parts)) (rest : List Char) : e.fullForm.toList ++ rest =
      e.label.toList ++ '[' :: (part.fullForm.toList ++ closing parts rest) := by
  rw [fullForm_of_node node]
  simp [nodeText, String.toList_intercalate, intercalate_cons, closing, List.flatMap_map]

/-- Where an operand ends, and which one it is, can be seen from the text. -/
def Expr.Separable (e : Expr) : Prop :=
  ∀ {other : Expr} {rest rest' : List Char}, other.Readable nodeNames → EndsEntry rest →
    EndsEntry rest' → e.fullForm.toList ++ rest = other.fullForm.toList ++ rest' →
    e = other ∧ rest = rest'

theorem separated_entries : Separated (fun part : Expr => [',', ' '] ++ part.fullForm.toList)
    (Expr.Readable nodeNames) EndsEntry (Ends [']']) where
  goes_on _ _ _ := by simp [EndsEntry]
  goes_no_further _ _ _ := by simp
  stops_ends _ ends c head := .inr (List.mem_singleton.mp (ends c head))

theorem closing_injective {part other : Expr} {parts others : List Expr} {rest rest' : List Char}
    (readable : ∀ p ∈ part :: parts, p.Readable nodeNames)
    (readable_others : ∀ p ∈ other :: others, p.Readable nodeNames)
    (separable : ∀ p ∈ part :: parts, p.Separable)
    (same : part.fullForm.toList ++ closing parts rest =
      other.fullForm.toList ++ closing others rest') :
    part :: parts = other :: others ∧ rest = rest' := by
  have legible (p : Expr) (member : p ∈ part :: parts) :
      Legible (fun e => e.fullForm.toList) (Expr.Readable nodeNames) EndsEntry p :=
    fun _ _ _ => separable p member
  have stops (tail : List Char) : Ends [']'] (']' :: tail) := by simp
  obtain ⟨first, later⟩ := List.forall_mem_cons.mp legible
  obtain ⟨entries, rests⟩ := separated_entries.inj first
    (fun p member => (later p member).after [',', ' '])
    (fun p member => readable p (List.mem_cons_of_mem _ member)) readable_others
    (stops rest) (stops rest') same
  exact ⟨entries, (List.cons.inj rests).2⟩

theorem Expr.Readable.separable {e : Expr} (readable : e.Readable nodeNames) : e.Separable := by
  intro other rest rest' readable_other ends ends' same
  cases node : e.entries with
  | none =>
    rw [fullForm_of_leaf node] at same
    cases node_other : other.entries with
    | none =>
      rw [fullForm_of_leaf node_other] at same
      obtain ⟨labels, rests⟩ :=
        label_inj readable readable_other ends.endsLabel ends'.endsLabel same
      exact ⟨(readable.leafText node).inj (readable_other.leafText node_other) labels, rests⟩
    | some others =>
      obtain ⟨next, others, rfl⟩ :=
        List.exists_cons_of_ne_nil (readable_other.entries_ne_nil node_other)
      rw [toList_fullForm_of_node node_other] at same
      obtain ⟨_, rfl⟩ :=
        label_inj readable readable_other ends.endsLabel (endsLabel_bracket _) same
      exact absurd ends (not_endsEntry_bracket _)
  | some parts =>
    obtain ⟨part, parts, rfl⟩ := List.exists_cons_of_ne_nil (readable.entries_ne_nil node)
    rw [toList_fullForm_of_node node] at same
    cases node_other : other.entries with
    | none =>
      rw [fullForm_of_leaf node_other] at same
      obtain ⟨_, rests⟩ :=
        label_inj readable readable_other (endsLabel_bracket _) ends'.endsLabel same
      exact absurd (rests ▸ ends') (not_endsEntry_bracket _)
    | some others =>
      obtain ⟨next, others, rfl⟩ :=
        List.exists_cons_of_ne_nil (readable_other.entries_ne_nil node_other)
      rw [toList_fullForm_of_node node_other] at same
      obtain ⟨labels, brackets⟩ :=
        label_inj readable readable_other (endsLabel_bracket _) (endsLabel_bracket _) same
      have entries := readable.entry node
      obtain ⟨same_entries, rests⟩ := closing_injective entries (readable_other.entry node_other)
        (fun p member => (entries p member).separable) (List.cons.inj brackets).2
      -- Both nodes are now built from one name and one list.
      have built := readable.ofEntries_label node
      rw [labels, same_entries, readable_other.ofEntries_label node_other] at built
      exact ⟨(Option.some.inj built).symm, rests⟩
termination_by e.size
decreasing_by exact size_entry_lt node member

/-- The full form shows the structure: canonical expressions with the same full form are the same,
if all names are words and no function is called like another node. -/
theorem fullForm_injective {a b : Expr} (left : a.Readable nodeNames)
    (right : b.Readable nodeNames) (same : a.fullForm = b.fullForm) : a = b := by
  have ends : EndsEntry [] := fun c head => nomatch head
  have texts : a.fullForm.toList ++ [] = b.fullForm.toList ++ [] := by rw [same]
  exact (left.separable right ends ends texts).1

theorem fullForm_injective_half :
    ((sum 2 [(apply "f" (symbol "x"), 4)]).scale (1 / 2)).fullForm = "Add[Mul[2, f[x]], 1]" ∧
      (sum 2 [(apply "f" (symbol "x"), 4)]).scale (1 / 2) =
        sum 1 [(apply "f" (symbol "x"), 2)] := by
  have readable {c q : Rat} (other : c ≠ 0) (nonzero : q ≠ 0) :
      (sum c [(apply "f" (symbol "x"), q)]).Readable nodeNames := by
    refine ⟨.sum ⟨by simp, fun zero => absurd zero other, by simp [Increasing], ?_, ?_⟩ ?_,
      .sum ?_⟩ <;> intro t r stored <;> cases List.mem_singleton.mp stored
    · trivial
    · exact nonzero
    · exact .apply (.symbol "x")
    · exact .apply (by decide) (.symbol (by decide))
  have text : ((sum 2 [(apply "f" (symbol "x"), 4)]).scale (1 / 2)).fullForm =
      "Add[Mul[2, f[x]], 1]" := by
    cbv
  have text' : (sum 1 [(apply "f" (symbol "x"), 2)]).fullForm = "Add[Mul[2, f[x]], 1]" := by
    cbv
  obtain ⟨canonical, named⟩ := readable (c := 2) (q := 4) (by decide) (by decide)
  exact ⟨text, fullForm_injective ⟨canonical.scale _, named_scale named _⟩
    (readable (by decide) (by decide)) (text.trans text'.symm)⟩

/-- A function that is called like another node reads like it. -/
example : (apply "Sin" (symbol "x")).fullForm = (sin (symbol "x")).fullForm := by
  cbv

end SymbolicAlgebra
