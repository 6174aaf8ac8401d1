import SqlWright.Proofs.Drafting.Held
import SqlWright.Proofs.Scopes.Columns
import SqlWright.Proofs.Simplification.Values

/-!
# Statements under simplification

A tree that a graph holds is a part of the graph without cycles, and is the one that is seen from
its root. So simplifications of the graph keep what the tree denotes.
-/

namespace SqlWright

variable {E V : Type} {D : Denotation E V} {g : Graph} {t : Tree} {r : Ref}

private theorem Tree.everywhere_true (t : Tree) : t.Everywhere fun _ ↦ True := by
  induction t using Tree.induction_children with
  | h i n ih => exact .mk trivial ih

namespace Graph.Holds

theorem links (h : g.Holds t) : g.children t.id = t.children.map Tree.id := by
  rw [Graph.children, h.get_eq, Node.children_map]
  rfl

/-- Below the root of a tree that is held are the roots of the trees below it, which are like it. -/
theorem exists_of_reaches {p : Node Tree → Prop} (h : g.Holds t) (he : t.Everywhere p)
    (hr : g.Reaches t.id r) : ∃ u, g.Holds u ∧ u.Everywhere p ∧ u.id = r := by
  induction hr with
  | refl => exact ⟨t, h, he, rfl⟩
  | tail _ hc ih =>
    obtain ⟨u, hu, he, rfl⟩ := ih
    rw [Links, hu.links] at hc
    obtain ⟨c, mem, rfl⟩ := List.mem_map.1 hc
    obtain ⟨-, below⟩ := he
    exact ⟨c, hu.of_mem_children mem, below c mem, rfl⟩

/-- No links lead back to the root of a tree that is held. -/
theorem not_transGen (h : g.Holds t) : ¬Relation.TransGen g.Links t.id t.id := by
  induction h with
  | @mk i n content below ih =>
    have links := (Holds.mk content below).links
    intro cycle
    obtain ⟨_, hc, back⟩ := Relation.TransGen.head'_iff.1 cycle
    have link := hc
    rw [Links, links] at hc
    obtain ⟨c, mem, rfl⟩ := List.mem_map.1 hc
    exact ih c mem (.tail' back link)

theorem isAcyclicFrom (h : g.Holds t) : g.IsAcyclicFrom t.id where
  inUse r hr := by
    obtain ⟨u, hu, -, rfl⟩ := h.exists_of_reaches t.everywhere_true hr
    obtain ⟨inUse, -⟩ := Array.getElem?_eq_some_iff.1 hu.content_eq
    exact inUse
  irrefl r hr := by
    obtain ⟨u, hu, -, rfl⟩ := h.exists_of_reaches t.everywhere_true hr
    exact hu.not_transGen

/-- The tree that is seen from the root of a tree that is held is this tree. -/
theorem tree_eq (h : g.Holds t) : g.tree t.id = t := by
  induction h with
  | @mk i n content below ih =>
    have held : g.Holds (.mk i n) := .mk content below
    have seen : g.tree i = .mk i ((g.get i).map g.tree) :=
      held.isAcyclicFrom.isRanked.tree_eq Relation.ReflTransGen.refl
    have root : g.get i = n.map Tree.id := held.get_eq
    calc
      g.tree i = .mk i (n.map fun c ↦ g.tree c.id) := by rw [seen, root, Node.map_map]; rfl
      _ = .mk i n := by rw [Node.map_congr (g := id) ih, Node.map_id]

/-- Simplifications keep what a tree denotes whose connectives have truth values for operands. -/
theorem value_simplify (h : g.Holds t)
    (logical : t.Everywhere fun n ↦ ∀ c ∈ n.connected, D.IsTruth (D.value c))
    (ps : List Simplification) :
    D.value ((g.simplify t.id ps).1.tree t.id) = D.value t := by
  have logicalFrom : g.IsLogicalFrom D t.id := by
    intro r hr c hc
    obtain ⟨u, hu, ⟨root, -⟩, rfl⟩ := h.exists_of_reaches logical hr
    rw [hu.get_eq, Node.connected_map] at hc
    obtain ⟨c, mem, rfl⟩ := List.mem_map.1 hc
    have below : g.Holds c := hu.of_mem_children (Node.connected_subset _ mem)
    rw [Graph.value, below.tree_eq]
    exact root c mem
  have kept := ((h.isAcyclicFrom.agrees logicalFrom).simplify .refl ps).value t.id .refl
  rw [Graph.value, Graph.value, h.tree_eq] at kept
  exact kept

end Graph.Holds

end SqlWright
