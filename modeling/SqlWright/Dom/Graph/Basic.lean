import SqlWright.Dom.Tree
import SqlWright.Error

/-!
# Statement graphs

A graph stores nodes under references, so that nodes can be shared and changed
in place, and so that links may even form cycles. The reference zero is the one
null node. `Graph.tree` gives the tree that is seen from a node.
-/

namespace SqlWright

/-- Reference to a node of a graph. -/
abbrev Ref := Nat

/-- Nodes under the references from zero on. -/
structure Graph where
  nodes : Array (Node Ref)

namespace Graph

/-- Graph of the null node alone. -/
def empty : Graph := ⟨#[.null]⟩

/-- Number of references in use. -/
def size (g : Graph) : Nat := g.nodes.size

/-- Node under a reference; a reference that is not in use reads as null. -/
def get (g : Graph) (r : Ref) : Node Ref := g.nodes[r]?.getD .null

/-- Links of the node under a reference. -/
def children (g : Graph) (r : Ref) : List Ref := (g.get r).children

/-- Kind of the node under a reference. -/
def kind (g : Graph) (r : Ref) : Kind := (g.get r).kind

/-- Graph with one more node, and the reference to it. Every null is the same node. -/
def add (g : Graph) (n : Node Ref) : Ref × Graph :=
  if n.isNull then (0, g) else (g.size, ⟨g.nodes.push n⟩)

/-- Graph with another content under a reference that is in use. -/
def set (g : Graph) (r : Ref) (n : Node Ref) : Graph := ⟨g.nodes.setIfInBounds r n⟩

/-- Graph in which the node `r` holds what the node `other` holds. The two must be of one
kind. -/
def replace (g : Graph) (r other : Ref) : Except Error Graph :=
  if r = other then .ok g
  else if g.kind r = g.kind other then .ok (g.set r (g.get other))
  else .error (.kindMismatch (g.kind r) (g.kind other))

/-- Number of links that differ from the links they replace. -/
def changedLinks (old new : List Ref) : Nat :=
  (old.zip new).countP fun p ↦ p.1 ≠ p.2

/-- Number of links changed, and the graph in which the links of the node are replaced by the
results of an action on the graph. -/
def relinkChildren (g : Graph) (r : Ref) (f : Ref → StateM Graph Ref) : Nat × Graph :=
  let old := g.get r
  let (new, g) := (old.mapM f).run g
  let changed := changedLinks old.children new.children
  if changed = 0 then (0, g) else (changed, g.set r new)

/-- Tree seen from a node, to a depth. -/
def treeTo (g : Graph) : Nat → Ref → Tree
  | 0, r => .mk r .null
  | depth + 1, r => .mk r ((g.get r).map (g.treeTo depth))

/-- Tree seen from a node. A path without repetitions is never longer than the graph has
nodes, so only a cycle is cut short. -/
def tree (g : Graph) (r : Ref) : Tree := g.treeTo (g.size + 1) r

/-- Select under a reference. -/
def select? (g : Graph) (r : Ref) : Option (Select Ref) :=
  match g.get r with
  | .select s => some s
  | _ => none

/-- Name that a select gives to one of its columns: the alias, else the name of the column
itself. -/
def columnName? (g : Graph) (s : Select Ref) (i : Nat) : Option String :=
  s.columns[i]?.bind fun c ↦
    c.label <|> match g.get c.expr with
      | .column _ name => some name
      | _ => none

end Graph

end SqlWright
