import SqlWright.Dom.Graph.Walk

/-!
# Simplification

Two simplifications replace a node by a simpler one of the same meaning: boolean
constants leave conjunctions, disjunctions and negations, and a cast to a type
leaves out a cast to the same type below it. They work on a graph in place, each
node after its children, by redirecting links; the root, to which no link leads,
takes over the content of its replacement.
-/

namespace SqlWright

/-- Simplification of statements. -/
inductive Simplification where
  | booleanConstants
  | redundantCasts
  deriving DecidableEq

namespace Simplification

/-- Simplifications that are made unless others are asked for. -/
def standard : List Simplification := [booleanConstants, redundantCasts]

/-- Node that stands in for another: one of the graph, or a new boolean constant. -/
inductive Replacement where
  | existing (r : Ref)
  | constant (value : Bool)
  deriving DecidableEq

/-- Value of a boolean constant. -/
def constant? (g : Graph) (r : Ref) : Option Bool :=
  match g.get r with
  | .literal (.boolean value) => some value
  | _ => none

/-- Operand that `left op right` comes to; `identity` is the constant that changes nothing
under the operator, and its negation decides the result alone. -/
def foldConnective (g : Graph) (identity : Bool) (left right : Ref) : Option Ref :=
  match constant? g left, constant? g right with
  | some l, _ => some (if l = identity then right else left)
  | none, some r => some (if r = identity then left else right)
  | none, none => none

/-- Replacement of a node, if the simplification applies to it. -/
def replacement? (p : Simplification) (g : Graph) (r : Ref) : Option Replacement :=
  match p, g.get r with
  | booleanConstants, .binary .and left right =>
    (foldConnective g true left right).map .existing
  | booleanConstants, .binary .or left right =>
    (foldConnective g false left right).map .existing
  | booleanConstants, .unary .negation operand =>
    (constant? g operand).map fun value ↦ .constant !value
  | redundantCasts, .cast operand type =>
    match g.get operand with
    | .cast _ inner => if inner = type then some (.existing operand) else none
    | _ => none
  | _, _ => none

/-- Reference to the replacement of a node, or to the node itself where none is. -/
def substitute (p : Simplification) (r : Ref) : StateM Graph Ref := fun g ↦
  match p.replacement? g r with
  | some (.existing other) => (other, g)
  | some (.constant value) => g.add (.literal (.boolean value))
  | none => (r, g)

/-- Number of links changed below the listed nodes, and the graph after it. -/
def substituteLinks (p : Simplification) (g : Graph) (nodes : List Ref) : Nat × Graph :=
  nodes.foldl
    (fun (count, g) r ↦
      let (changed, g) := g.relinkChildren r p.substitute
      (count + changed, g))
    (0, g)

/-- One simplification of all that is reachable from a root: the graph after it, and the
number of replacements, or the failure to replace the root. -/
def run (p : Simplification) (g : Graph) (root : Ref) : Graph × Except Error Nat :=
  let (count, g) := p.substituteLinks g (g.postOrder root)
  if (p.replacement? g root).isSome then
    let (other, g) := p.substitute root g
    match g.replace root other with
    | .ok g => (g, .ok (count + 1))
    | .error e => (g, .error e)
  else (g, .ok count)

end Simplification

/-- Simplifications one after the other, up to the first failure: the graph after them, and
the number of replacements. -/
def Graph.simplify (g : Graph) (root : Ref) : List Simplification → Graph × Except Error Nat
  | [] => (g, .ok 0)
  | p :: rest =>
    match p.run g root with
    | (g, .error e) => (g, .error e)
    | (g, .ok count) =>
      let (g, result) := g.simplify root rest
      (g, result.map (count + ·))

end SqlWright
