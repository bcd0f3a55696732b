import SymbolicAlgebra.Sum

namespace SymbolicAlgebra

namespace Expr

/-- The expressions that are stored in an expression: the terms of a sum and then its constant, the
bases and exponents of a product and then its coefficient, the arguments of all else. -/
def parts : Expr → List Expr
  | number _ => []
  | symbol _ => []
  | sum constant terms => terms.map (·.1) ++ [number constant]
  | product coefficient factors => factors.flatMap (fun (b, e) => [b, e]) ++ [number coefficient]
  | power b e => [b, e]
  | sin a => [a]
  | cos a => [a]
  | apply _ a => [a]
  | derivative a _ => [a]

theorem size_stored_lt {e part : Expr} (member : part ∈ e.parts) : part.size < e.size := by
  cases e with
  | number q => cases member
  | symbol name => cases member
  | sum constant terms =>
    simp only [parts, List.mem_append, List.mem_map, List.mem_singleton] at member
    rcases member with ⟨⟨t, q⟩, inside, rfl⟩ | rfl
    · have bound := size_term_lt inside
      simp only [size]
      omega
    · simp only [size]
      omega
  | product coefficient factors =>
    simp only [parts, List.mem_append, List.mem_flatMap, List.mem_singleton] at member
    rcases member with ⟨⟨b, x⟩, inside, either⟩ | rfl
    · have bound := size_factor_lt inside
      simp only [List.mem_cons, List.not_mem_nil, or_false] at either
      simp only [size]
      rcases either with rfl | rfl <;> omega
    · simp only [size]
      omega
  | power b x =>
    simp only [parts, List.mem_cons, List.not_mem_nil, or_false] at member
    simp only [size]
    rcases member with rfl | rfl <;> omega
  | _ =>
    simp only [parts, List.mem_singleton] at member
    subst member
    simp only [size]
    omega

/-- The path of part numbers to the first place where an expression is stored in another one. -/
def locate (target e : Expr) : Option (List Nat) :=
  if e = target then some []
  else e.parts.attach.zipIdx.findSome? fun (part, i) => (locate target part.1).map (i :: ·)
termination_by e.size
decreasing_by exact size_stored_lt part.2

end Expr

open SymbolicAlgebra.Expr

/-- Which node it is: the number of the construction that made it, and its place in the result. -/
structure Identity where
  serial : Nat
  path : List Nat
deriving DecidableEq

/-- For every path of part numbers into an expression the node that stands there; none if that
node is only about to be made. -/
abbrev Origin := List Nat → Option Identity

def Origin.part (origin : Origin) (i : Nat) : Origin :=
  fun path => origin (i :: path)

/-- An expression as it is stored. What is built from other expressions refers to their nodes and
does not copy them, so equal expressions may be one node or several. -/
structure Node where
  value : Expr
  origin : Origin

namespace Node

/-- Whether two nodes are one. The numbers 0, 1 and -1 have one node each. -/
def isSame (a b : Node) : Bool :=
  a.value = b.value &&
    (a.value.isZero || a.value.isOne || a.value.isMinusOne ||
      (a.origin []).any fun identity => b.origin [] = some identity)

def part? (node : Node) (i : Nat) : Option Node :=
  node.value.parts[i]?.map fun e => ⟨e, node.origin.part i⟩

def parts (node : Node) : List Node :=
  node.value.parts.mapIdx fun i e => ⟨e, node.origin.part i⟩

/-- A node about to be made, which refers to the given nodes where there are any. -/
def new (e : Expr) (part? : Nat → Option Node) : Node where
  value := e
  origin
    | [] => none
    | i :: path => (part? i).bind fun part => part.origin path

/-- A node about to be made whose parts are new as well. -/
def leaf (e : Expr) : Node :=
  new e fun _ => none

/-- A node about to be made with a single part. -/
def wrap (e : Expr) (argument : Node) : Node :=
  new e fun i => if i = 0 then some argument else none

/-- Gives a name to all nodes that are about to be made. -/
def named (serial : Nat) (node : Node) : Node where
  value := node.value
  origin path := (node.origin path).or (some ⟨serial, path⟩)

/-- The node that stands at the end of a path in an expression that was derived from the sources:
whatever is stored in one of the sources is not made again. -/
def sourceOf (sources : List Node) (e : Expr) (path : List Nat) : Option Identity :=
  let stored := sources.findSome? fun source =>
    (locate e source.value).map fun place => source.origin (place ++ path)
  match stored, path with
  | some identity, _ => identity
  | none, [] => none
  | none, i :: rest => e.parts[i]?.bind fun part => sourceOf sources part rest

/-- The first of some nodes with a value, or else what the sources have of it. -/
def reuse (nodes : List Node) (e : Expr) : Node :=
  (nodes.find? fun node => node.value = e).getD ⟨e, sourceOf nodes e⟩

/-- An expression derived from another. Sums, products, powers and numbers are made anew, also if
they are equal to one that was there. -/
def derived (source : Node) (e : Expr) : Node :=
  match e with
  | number _ | sum _ _ | product _ _ | power _ _ =>
    new e fun i => e.parts[i]?.map (reuse source.parts)
  | e => reuse [source] e

/-- The same factors or terms with other coefficients. A factor that is left alone without a
coefficient is its own base. -/
def reshaped (node : Node) (e : Expr) : Node :=
  match e with
  | number q => leaf (number q)
  | sum _ _ | product _ _ | power _ _ => new e node.part?
  | e => ⟨e, node.origin.part 0⟩

def scale (q : Rat) (node : Node) : Node :=
  if q = 1 then node
  else match node.value with
    | number _ | sum _ _ | product _ _ | power _ _ => node.reshaped (node.value.scale q)
    | e => wrap (e.scale q) node

/-- The terms that a node adds to a sum. -/
def terms (node : Node) : List Node :=
  match node.value with
  | number _ => []
  | sum _ _ => node.parts.dropLast
  | product coefficient factors =>
    if coefficient = 1 then [node] else [node.reshaped (withCoefficient 1 factors)]
  | _ => [node]

/-- The sum of some nodes. Of equal terms the first is kept, and a term that is left alone is the
whole sum. -/
def sum (operands : List Node) (e : Expr) : Node :=
  let terms := operands.flatMap terms
  match e with
  | .sum _ multiples => new e fun i => multiples[i]?.map fun (t, _) => reuse terms t
  | e =>
    match e.termPart with
    | [(t, q)] => (reuse terms t).scale q
    | _ => leaf e

def pairs : List Node → List (Node × Node)
  | b :: e :: rest => (b, e) :: pairs rest
  | _ => []

/-- The factors that a node contributes to a product. -/
def factors (node : Node) : List (Node × Node) :=
  match node.value with
  | number _ => []
  | product _ _ | power _ _ => pairs node.parts
  | _ => [(node, leaf (number 1))]

/-- The exponent of a base in a product: the only one that was contributed, or a total. -/
def exponentIn (factors : List (Node × Node)) (b e : Expr) : Node :=
  match factors.filter (fun factor => factor.1.value = b) with
  | [(_, exponent)] => if exponent.value = e then exponent else sum [exponent] e
  | others => sum (others.map (·.2)) e

/-- A node with the given factors, taken from those that were contributed. -/
def ofFactors (contributed : List (Node × Node)) (e : Expr) (factors : List Factor) : Node :=
  new e fun i => factors[i / 2]?.map fun (b, x) =>
    if i % 2 = 0 then reuse (contributed.map (·.1)) b else exponentIn contributed b x

/-- The product of some nodes. Of equal bases the first is kept, and a base that is left alone is
the whole product. -/
def product (operands : List Node) (e : Expr) : Node :=
  let contributed := operands.flatMap factors
  let bases := contributed.map (·.1)
  match e with
  | number q => leaf (number q)
  | .product _ factors => ofFactors contributed e factors
  | power b x => ofFactors contributed e [(b, x)]
  | .sum _ multiples =>
    match bases.find? fun base => base.value = e with
    | some base => base
    | none => new e fun i => multiples[i]?.map fun (t, _) => reuse (bases.flatMap terms) t
  | e => reuse bases e

/-- The power of a node. An exponent that was multiplied into others is one of their factors. -/
def power (b x : Node) (e : Expr) : Node :=
  if x.value.isOne then b
  else if e = .power b.value x.value then new e fun i => [b, x][i]?
  else product [b] e

/-- The operands of a node, in stored order. -/
def operands (node : Node) : List Node :=
  match node.value with
  | .sum constant multiples =>
    (node.parts.zip multiples).map (fun (t, _, q) => t.scale q) ++
      (if constant = 0 then [] else node.parts.getLast?.toList)
  | .product coefficient _ =>
    (if coefficient = 1 then [] else node.parts.getLast?.toList) ++
      (pairs node.parts).map fun (b, x) => power b x (ofFactor (b.value, x.value))
  | _ => node.parts

/-- Base and exponent of a node read as one factor of a product. -/
def toFactor (node : Node) : Node × Node :=
  match node.value, node.parts with
  | .power _ _, [b, x] => (b, x)
  | _, _ => (node, leaf (number 1))

end Node

end SymbolicAlgebra
