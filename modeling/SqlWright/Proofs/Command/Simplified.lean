import SqlWright.Proofs.Command.Writing
import SqlWright.Proofs.Simplification.Relinking

/-!
# Writable graphs

A simplification redirects links and adds boolean constants. It keeps every node
writable and the root a select, which nothing replaces; so it never fails.
-/

namespace SqlWright

namespace Graph

variable {server : Server} {g : Graph} {root : Ref}

/-- Every node of the graph is writable. -/
def Writable (server : Server) (g : Graph) : Prop := ∀ r, (g.get r).Writable server

/-- Every node is writable, and the root is a select. -/
structure WritableFrom (server : Server) (root : Ref) (g : Graph) : Prop where
  nodes : g.Writable server
  root : g.kind root = .select

theorem Writable.add (h : g.Writable server) {n : Node Ref} (hn : n.Writable server) :
    (g.add n).2.Writable server := by
  intro r
  by_cases hr : r < g.size
  · rw [(g.extends_add n).get_eq hr]
    exact h r
  · unfold Graph.add
    split
    · exact h r
    · rw [get, Array.getElem?_push]
      split
      · exact hn
      · rw [Array.getElem?_eq_none (Nat.le_of_not_lt hr)]
        trivial

namespace WritableFrom

theorem add (h : g.WritableFrom server root) {n : Node Ref} (hn : n.Writable server) :
    (g.add n).2.WritableFrom server root := by
  refine ⟨h.nodes.add hn, ?_⟩
  have hr : root < g.size := by
    by_contra hr
    have := h.root
    rw [kind, get, Array.getElem?_eq_none (Nat.le_of_not_lt hr)] at this
    cases this
  rw [kind, (g.extends_add n).get_eq hr]
  exact h.root

theorem set (h : g.WritableFrom server root) {r : Ref} {n : Node Ref} (hn : n.Writable server)
    (hk : r = root → n.kind = .select) : (g.set r n).WritableFrom server root := by
  constructor
  · intro r'
    rw [get_set]
    split
    · exact hn
    · exact h.nodes r'
  · rw [kind, get_set]
    split
    · next he => exact hk he.1
    · exact h.root

end WritableFrom

end Graph

namespace Simplification

variable {server : Server} {g : Graph} {root : Ref}

theorem keeps_substitute (p : Simplification) (r : Ref) :
    Graph.Keeps (Graph.WritableFrom server root) (p.substitute r) fun _ _ ↦ () = () := by
  intro g hg
  refine ⟨?_, p.extends_substitute g r, fun _ _ ↦ rfl⟩
  simp only [substitute, StateT.run]
  split
  · exact hg
  · exact hg.add trivial
  · exact hg

theorem writableFrom_relinkChildren (p : Simplification) (h : g.WritableFrom server root)
    (r : Ref) : (g.relinkChildren r p.substitute).2.WritableFrom server root := by
  obtain ⟨g', n, kept, grown, same, he⟩ :=
    Graph.exists_relinkChildren (t := fun _ _ ↦ ()) (s := fun _ ↦ ()) (r := r) h
      fun c _ ↦ keeps_substitute p c
  rcases he with he | he
  · exact he ▸ kept
  · rw [he]
    refine kept.set ?_ fun hr ↦ ?_
    · rw [← Node.writable_map (f := fun _ ↦ ()), same, Node.writable_map]
      exact h.nodes r
    · have kind := congrArg Node.kind same
      rw [Node.kind_map, Node.kind_map] at kind
      rw [kind, hr]
      exact h.root

/-- Nothing replaces a select. -/
theorem replacement?_select (p : Simplification) (h : g.kind root = .select) :
    p.replacement? g root = none := by
  rw [Graph.kind] at h
  unfold replacement?
  cases hn : g.get root with
  | select s => cases p <;> rfl
  | _ =>
    rw [hn] at h
    cases h

/-- A simplification succeeds, and what it leaves is writable. -/
theorem exists_run (p : Simplification) (h : g.WritableFrom server root) :
    ∃ g' count, p.run g root = (g', .ok count) ∧ g'.WritableFrom server root := by
  have kept : (p.substituteLinks g (g.postOrder root)).2.WritableFrom server root :=
    substituteLinks_keeps h fun r _ _ hg ↦ writableFrom_relinkChildren p hg r
  rcases hl : p.substituteLinks g (g.postOrder root) with ⟨count, g'⟩
  rw [hl] at kept
  refine ⟨g', count, ?_, kept⟩
  simp only [run, hl, replacement?_select p kept.root]
  rfl

end Simplification

namespace Graph

variable {server : Server} {g : Graph} {root : Ref}

/-- Simplifications succeed, and what they leave is writable. -/
theorem WritableFrom.exists_simplify (h : g.WritableFrom server root) (ps : List Simplification) :
    ∃ g' count, g.simplify root ps = (g', .ok count) ∧ g'.WritableFrom server root := by
  induction ps generalizing g with
  | nil => exact ⟨g, 0, rfl, h⟩
  | cons p ps ih =>
    obtain ⟨g₁, count₁, h₁, kept⟩ := p.exists_run h
    obtain ⟨g₂, count₂, h₂, kept⟩ := ih kept
    refine ⟨g₂, count₁ + count₂, ?_, kept⟩
    rw [simplify, h₁]
    dsimp only
    rw [h₂]
    rfl

/-- The tree of a writable graph is writable. -/
theorem WritableFrom.tree (h : g.WritableFrom server root) (r : Ref) :
    (g.tree r).Writable server := by
  have depth (n : Nat) (r : Ref) : (g.treeTo n r).Writable server := by
    induction n generalizing r with
    | zero => exact .mk trivial (by simp [Node.children])
    | succ n ih =>
      refine .mk (Node.writable_map.2 (h.nodes r)) fun c hc ↦ ?_
      rw [Node.children_map, List.mem_map] at hc
      obtain ⟨r', -, rfl⟩ := hc
      exact ih r'
  exact depth _ r

end Graph

end SqlWright
