import SqlWright.Dom.Graph.Basic

/-!
# Walks over a graph

A walk visits the nodes that are reachable from a root, each once, deeper nodes
before later siblings. It records the nodes in the order in which they are
entered and in the order in which they are left.
-/

namespace SqlWright

namespace Graph

/-- Nodes entered and nodes left so far, the latest first. -/
structure Walk where
  entered : List Ref := []
  left : List Ref := []

/-- Walk on to a node and to what is below it, unless it was entered before; `depth` bounds
the number of nodes entered and not yet left. -/
def visit (g : Graph) : Nat → Walk → Ref → Walk
  | 0, w, _ => w
  | depth + 1, w, r =>
    if r ∈ w.entered then w
    else
      let below := (g.children r).foldl (g.visit depth) { w with entered := r :: w.entered }
      { below with left := r :: below.left }

/-- Walk over all that is reachable from a root. -/
def walk (g : Graph) (root : Ref) : Walk := g.visit (g.size + 1) {} root

/-- Reachable nodes, a node before those that are first met below it. -/
def preOrder (g : Graph) (root : Ref) : List Ref := (g.walk root).entered.reverse

/-- Reachable nodes; without cycles, a node after its children. -/
def postOrder (g : Graph) (root : Ref) : List Ref := (g.walk root).left.reverse

/-- Parameter that a node itself speaks of, as an expression or in the key of a variant. -/
def parameter? : Node Ref → Option Parameter
  | .parameter p => some p
  | .variant (.isNull p) _ _ => some p
  | _ => none

/-- List with an element at the end, unless it holds the parameter already. -/
def insertParameter (ps : List Parameter) (p : Parameter) : List Parameter :=
  if ps.any (·.id == p.id) then ps else ps ++ [p]

/-- Parameters of the reachable nodes in the order in which they are met first. -/
def parameters (g : Graph) (root : Ref) : List Parameter :=
  ((g.preOrder root).filterMap fun r ↦ parameter? (g.get r)).foldl insertParameter []

/-- Numbers of reachable nodes and of links that lead to them, that to the root included. -/
structure NodeCount where
  distinct : Nat
  references : Nat
  deriving DecidableEq

/-- Size of what is reachable from a root. -/
def count (g : Graph) (root : Ref) : NodeCount :=
  let nodes := g.preOrder root
  ⟨nodes.length, 1 + (nodes.flatMap g.children).length⟩

end Graph

end SqlWright
