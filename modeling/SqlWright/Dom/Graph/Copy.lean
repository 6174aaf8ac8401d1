import SqlWright.Dom.Graph.Basic

/-!
# Copies of a graph

A node reached twice is copied once, so that a copy shares its parts as its
source does. A node is recorded before its children are copied, so that copying
a cycle ends as well. The null node is its own copy.
-/

namespace SqlWright

/-- Copies made so far, each beside its source. -/
structure Copies where
  pairs : List (Ref × Ref) := []

namespace Copies

/-- Copy of a node, if one was made. -/
def get? (c : Copies) (source : Ref) : Option Ref := c.pairs.lookup source

/-- Number of nodes copied. -/
def size (c : Copies) : Nat := c.pairs.length

end Copies

/-- State of copying: the graph that grows, and the copies made. -/
structure Copying where
  graph : Graph
  copies : Copies

namespace Copying

/-- State with an empty node, and the reference to it, recorded as the copy of a node. -/
def reserve (s : Copying) (source : Ref) : Copying :=
  ⟨⟨s.graph.nodes.push .null⟩, ⟨(source, s.graph.size) :: s.copies.pairs⟩⟩

/-- Copy of a node and of what is below it; `depth` bounds the number of nodes recorded and
not yet filled. -/
def copyTo : Nat → Ref → StateM Copying Ref
  | 0, r => return r
  | depth + 1, r => fun s ↦
    match s.copies.get? r with
    | some copy => (copy, s)
    | none =>
      let node := s.graph.get r
      if node.isNull then (r, s)
      else
        let (filled, after) := (node.mapM (copyTo depth)).run (s.reserve r)
        (s.graph.size, { after with graph := after.graph.set s.graph.size filled })

end Copying

/-- Copy of a node and of what is below it, beside copies made before. -/
def Graph.copy (g : Graph) (copies : Copies) (r : Ref) : Ref × Graph × Copies :=
  let (copy, s) := (Copying.copyTo (g.size + 1) r).run ⟨g, copies⟩
  (copy, s.graph, s.copies)

end SqlWright
