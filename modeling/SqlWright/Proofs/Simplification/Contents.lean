import SqlWright.Proofs.Scopes.Columns
import SqlWright.Proofs.Simplification.Statements

/-!
# What simplifications leave

A simplification puts nodes of a statement in the places of others, and makes boolean constants.
So what is true of all nodes of a statement, whatever their links are, and of boolean constants, is
true of all nodes that are left.
-/

namespace SqlWright

variable {α β γ : Type} {ok : Node Unit → Prop} {base g g' : Graph} {root r c o : Ref}
  {part : Set Ref}

namespace Node

/-- Node without its links. -/
def shape (n : Node α) : Node Unit := n.map fun _ ↦ ()

@[simp]
theorem shape_map (f : α → β) (n : Node α) : (n.map f).shape = n.shape := by
  rw [shape, map_map]
  rfl

theorem shape_eq_of_map_eq {f : α → γ} {f' : β → γ} {n : Node α} {m : Node β}
    (h : n.map f = m.map f') : n.shape = m.shape := by
  rw [← shape_map f, h, shape_map]

end Node

namespace Graph

/-- The nodes of a part of a graph, and those added since, are as they may be and link to one
another. -/
structure MadeOf (ok : Node Unit → Prop) (g base : Graph) (part : Set Ref) : Prop where
  size_le : base.size ≤ g.size
  inUse : ∀ r ∈ part, r < base.size
  nodes : ∀ r ∈ base.since part g, ok (g.get r).shape
  closed : ∀ r ∈ base.since part g, ∀ c ∈ g.children r, c ∈ base.since part g

namespace MadeOf

theorem lt (h : g.MadeOf ok base part) (hr : r ∈ base.since part g) : r < g.size :=
  hr.elim (fun hr ↦ (h.inUse r hr).trans_le h.size_le) And.right

/-- A new constant is as it may be. -/
theorem add (h : g.MadeOf ok base part) {b : Bool} (hb : ok (.literal (.boolean b))) :
    (g.add (.literal (.boolean b))).2.MadeOf ok base part := by
  obtain ⟨-, size, new⟩ := get_add (g := g) (n := .literal (.boolean b)) rfl
  have grown := g.extends_add (.literal (.boolean b))
  generalize (g.add (.literal (.boolean b))).2 = g' at *
  refine ⟨h.size_le.trans grown.size_le, h.inUse, fun r hr ↦ ?_, fun r hr c hc ↦ ?_⟩
  · rcases mem_since_of_size size hr with hr | rfl
    · rw [grown.get_eq (h.lt hr)]
      exact h.nodes r hr
    · rw [new]
      exact hb
  · rcases mem_since_of_size size hr with hr | rfl
    · rw [children, grown.get_eq (h.lt hr)] at hc
      exact mem_since grown.size_le (h.closed r hr c hc)
    · rw [children, new] at hc
      cases hc

/-- A node may become another that is as it may be and links to nodes of the part. -/
theorem set (h : g.MadeOf ok base part) {n : Node Ref} (hn : ok n.shape)
    (hc : ∀ c ∈ n.children, c ∈ base.since part g) : (g.set r n).MadeOf ok base part := by
  have size : (g.set r n).size = g.size := by simp [Graph.set, Graph.size]
  have same : base.since part (g.set r n) = base.since part g := since_congr size
  refine ⟨size ▸ h.size_le, h.inUse, fun r' hr' ↦ ?_, fun r' hr' c mem ↦ ?_⟩
  · rw [get_set]
    split
    · exact hn
    · exact h.nodes r' (same ▸ hr')
  · rw [children, get_set] at mem
    rw [same]
    split at mem
    · exact hc c mem
    · exact h.closed r' (same ▸ hr') c mem

end MadeOf

end Graph

namespace Simplification

open SqlWright.Graph

/-- What stands in for a node is further below. -/
theorem mem_of_replacement? {p : Simplification}
    (closed : ∀ r ∈ part, ∀ c ∈ g.children r, c ∈ part) (hr : r ∈ part)
    (h : p.replacement? g r = some (.existing o)) : o ∈ part :=
  closed r hr o (mem_children_of_replacement? h)

variable (boolean : ∀ b, ok (.literal (.boolean b)))
include boolean

/-- A substitute is a node of the part or a new constant. -/
theorem keeps_madeOf (p : Simplification) (hr : r ∈ base.since part g) :
    Keeps (fun g' ↦ g'.MadeOf ok base part ∧ g.size ≤ g'.size) (p.substitute r) fun g' o ↦
      (o ∈ base.since part g') = True := by
  rintro g₁ ⟨h₁, grown⟩
  have hr₁ := mem_since grown hr
  simp only [StateT.run, substitute]
  split
  · next o hs =>
    have ho := mem_of_replacement? h₁.closed hr₁ hs
    exact ⟨⟨h₁, grown⟩, .refl g₁, fun g' hg ↦ eq_true (mem_since hg.size_le ho)⟩
  · next b hs =>
    obtain ⟨fresh, size, -⟩ := get_add (g := g₁) (n := .literal (.boolean b)) rfl
    have more := g₁.extends_add (.literal (.boolean b))
    refine ⟨⟨h₁.add (boolean b), grown.trans more.size_le⟩, more, fun g' hg ↦ eq_true ?_⟩
    rw [fresh]
    exact mem_since hg.size_le (.inr ⟨h₁.size_le, size ▸ Nat.lt_succ_self _⟩)
  · exact ⟨⟨h₁, grown⟩, .refl g₁, fun g' hg ↦ eq_true (mem_since hg.size_le hr₁)⟩

/-- Redirecting the links of one node leaves all nodes as they may be. -/
theorem madeOf_relinkChildren (p : Simplification) (h : g.MadeOf ok base part)
    (hr : r ∈ base.since part g) :
    (g.relinkChildren r p.substitute).2.MadeOf ok base part ∧
      g.size ≤ (g.relinkChildren r p.substitute).2.size := by
  obtain ⟨g', n, ⟨h', grown⟩, -, same, result⟩ :=
    exists_relinkChildren (r := r) ⟨h, Nat.le_refl _⟩ fun c hc ↦
      keeps_madeOf boolean p (h.closed r hr c hc)
  have below : ∀ c ∈ n.children, c ∈ base.since part g' := by
    intro c hc
    have links := congrArg Node.children same
    rw [Node.children_map, Node.children_map] at links
    have fact := List.mem_map_of_mem (f := fun o ↦ o ∈ base.since part g') hc
    rw [links] at fact
    obtain ⟨-, -, fact⟩ := List.mem_map.1 fact
    exact fact ▸ trivial
  rcases result with result | result
  · exact result ▸ ⟨h', grown⟩
  · rw [result]
    refine ⟨h'.set (Node.shape_eq_of_map_eq same ▸ h.nodes r hr) below, ?_⟩
    simpa [Graph.set, Graph.size] using grown

/-- One simplification leaves all nodes as they may be, also where it fails at the root. -/
theorem madeOf_run (p : Simplification) (h : g.MadeOf ok base part) (hroot : root ∈ part) :
    (p.run g root).1.MadeOf ok base part := by
  obtain ⟨h₁, -⟩ : (p.substituteLinks g (g.postOrder root)).2.MadeOf ok base part ∧
      g.size ≤ (p.substituteLinks g (g.postOrder root)).2.size := by
    refine substituteLinks_keeps (I := fun g' ↦ g'.MadeOf ok base part ∧ g.size ≤ g'.size)
      ⟨h, le_rfl⟩ fun r hr g' hg ↦ ?_
    have hr' := mem_since hg.2 (mem_of_mem_postOrder h.closed (.inl hroot) r hr)
    obtain ⟨kept, grown⟩ := madeOf_relinkChildren boolean p hg.1 hr'
    exact ⟨kept, hg.2.trans grown⟩
  unfold run
  generalize p.substituteLinks g (g.postOrder root) = s at h₁ ⊢
  obtain ⟨count, g₁⟩ := s
  dsimp only at h₁ ⊢
  split
  · obtain ⟨⟨h₂, -⟩, -, result⟩ := keeps_madeOf boolean p (.inl hroot) g₁ ⟨h₁, Nat.le_refl _⟩
    have mem := of_eq_true (result _ (.refl _))
    simp only [StateT.run] at h₂ mem
    generalize p.substitute root g₁ = s at h₂ mem ⊢
    obtain ⟨other, g₂⟩ := s
    dsimp only at h₂ mem ⊢
    unfold replace
    split
    · next g₃ hg =>
      split at hg
      · cases hg
        exact h₂
      · split at hg
        · cases hg
          exact h₂.set (h₂.nodes other mem) (h₂.closed other mem)
        · cases hg
    · exact h₂
  · exact h₁

end Simplification

namespace Graph

/-- Simplifications leave all nodes as they may be, up to the first that fails. -/
theorem MadeOf.simplify (boolean : ∀ b, ok (.literal (.boolean b))) (h : g.MadeOf ok base part)
    (hroot : root ∈ part) (ps : List Simplification) :
    (g.simplify root ps).1.MadeOf ok base part := by
  induction ps generalizing g with
  | nil => exact h
  | cons p ps ih =>
    have kept := Simplification.madeOf_run boolean p h hroot
    rw [Graph.simplify]
    rcases hp : p.run g root with ⟨g', count | e⟩
    · rw [hp] at kept
      exact kept
    · rw [hp] at kept
      exact ih kept

/-- The tree that is seen from a node of the part is made of such nodes, and of nulls where it is
cut short. -/
theorem MadeOf.everywhere_tree (null : ok .null) (h : g.MadeOf ok base part)
    (hr : r ∈ base.since part g) : (g.tree r).Everywhere fun n ↦ ok n.shape := by
  have depth (n : Nat) {r : Ref} (hr : r ∈ base.since part g) :
      (g.treeTo n r).Everywhere fun n ↦ ok n.shape := by
    induction n generalizing r with
    | zero => exact .mk null (by simp [treeTo, Tree.children, Tree.node, Node.children])
    | succ n ih =>
      refine .mk ?_ fun c hc ↦ ?_
      · rw [treeTo, Tree.node, Node.shape_map]
        exact h.nodes r hr
      · rw [treeTo, Tree.children, Tree.node, Node.children_map] at hc
        obtain ⟨r', hr', rfl⟩ := List.mem_map.1 hc
        exact ih (h.closed r hr r' hr')
  exact depth _ hr

/-- What is true of the nodes of a statement, whatever their links, is true of those that are left
of it by simplifications. -/
theorem Holds.everywhere_simplify {t : Tree} (h : g.Holds t)
    (he : t.Everywhere fun n ↦ ok n.shape) (null : ok .null)
    (boolean : ∀ b, ok (.literal (.boolean b))) (ps : List Simplification) :
    ((g.simplify t.id ps).1.tree t.id).Everywhere fun n ↦ ok n.shape := by
  have since : g.since {r | g.Reaches t.id r} g = {r | g.Reaches t.id r} := by
    ext r
    exact ⟨fun hr ↦ hr.resolve_right fun hr ↦ (hr.1.trans_lt hr.2).false, .inl⟩
  have made : g.MadeOf ok g {r | g.Reaches t.id r} := by
    refine ⟨le_rfl, h.isAcyclicFrom.inUse, ?_, ?_⟩
    · rw [since]
      intro r hr
      obtain ⟨u, hu, ⟨root, -⟩, rfl⟩ := h.exists_of_reaches he hr
      rw [hu.get_eq, Node.shape_map]
      exact root
    · rw [since]
      exact fun r hr c hc ↦ hr.tail hc
  exact (made.simplify boolean .refl ps).everywhere_tree null (.inl .refl)

end Graph

end SqlWright
