import Mathlib.Data.Set.Card
import SqlWright.Proofs.Simplification.Relinking

/-!
# Ranks of a graph

Without cycles the nodes below a root have ranks: a node stands above its children. Trees seen
from such nodes do not depend on how deep one looks, and what is true of the children of a node
can be carried to the node.
-/

namespace SqlWright

variable {g g' : Graph} {root r c : Ref} {part : Set Ref} {rank : Ref → Nat}

namespace Graph

/-- The second node is a child of the first. -/
def Links (g : Graph) (r c : Ref) : Prop := c ∈ g.children r

/-- Links lead from the first node to the second. -/
def Reaches (g : Graph) : Ref → Ref → Prop := Relation.ReflTransGen g.Links

/-- What is reached from a root is in use, and no links lead from a node back to it. -/
structure IsAcyclicFrom (g : Graph) (root : Ref) : Prop where
  inUse (r : Ref) : g.Reaches root r → r < g.size
  irrefl (r : Ref) : g.Reaches root r → ¬Relation.TransGen g.Links r r

/-- A part of a graph is in use and closed under links, which lead to lower ranks. -/
structure IsRanked (g : Graph) (part : Set Ref) (rank : Ref → Nat) : Prop where
  inUse : ∀ r ∈ part, r < g.size
  below : ∀ r ∈ part, ∀ c ∈ g.children r, c ∈ part ∧ rank c < rank r
  rank_le : ∀ r ∈ part, rank r ≤ g.size

/-- Number of the nodes that links lead to. -/
noncomputable def height (g : Graph) (r : Ref) : Nat := {c | Relation.TransGen g.Links r c}.ncard

/-- A reference that is not in use has no links. -/
theorem children_of_size_le (h : g.size ≤ r) : g.children r = [] := by
  rw [children, get, Array.getElem?_eq_none h]
  rfl

theorem height_of_size_le (h : g.size ≤ r) : g.height r = 0 := by
  have none : {c | Relation.TransGen g.Links r c} = ∅ := by
    refine Set.eq_empty_of_forall_notMem fun c hc ↦ ?_
    obtain ⟨b, hb, -⟩ := Relation.TransGen.head'_iff.1 hc
    rw [Links, children_of_size_le h] at hb
    cases hb
  rw [height, none, Set.ncard_empty]

/-- Without cycles, what is reached from a root is ranked. -/
theorem IsAcyclicFrom.isRanked (h : g.IsAcyclicFrom root) :
    g.IsRanked {r | g.Reaches root r} g.height := by
  have subset {r : Ref} (hr : g.Reaches root r) :
      {c | Relation.TransGen g.Links r c} ⊆ Finset.range g.size :=
    fun c hc ↦ Finset.mem_coe.2 (Finset.mem_range.2 (h.inUse c (hr.trans hc.to_reflTransGen)))
  refine ⟨h.inUse, fun r hr c hc ↦ ?_, fun r hr ↦ ?_⟩
  · have reached : g.Reaches root c := hr.tail hc
    refine ⟨reached, Set.ncard_lt_ncard ⟨fun b hb ↦ Relation.TransGen.head hc hb, fun hs ↦ ?_⟩
      ((Finset.finite_toSet _).subset (subset hr))⟩
    exact h.irrefl c reached (hs (.single hc))
  · have bound := Set.ncard_le_ncard (subset hr) (Finset.finite_toSet _)
    rwa [Set.ncard_coe_finset, Finset.card_range] at bound

/-- A graph whose links all lead to earlier nodes has no cycles. -/
theorem isAcyclicFrom_of_lt (hroot : root < g.size)
    (h : ∀ r < g.size, ∀ c ∈ g.children r, c < r) : g.IsAcyclicFrom root := by
  have link {r c : Ref} (hc : g.Links r c) : c < r := by
    by_cases hr : r < g.size
    · exact h r hr c hc
    · rw [Links, children_of_size_le (Nat.le_of_not_lt hr)] at hc
      cases hc
  have path {r c : Ref} (hc : Relation.TransGen g.Links r c) : c < r := by
    induction hc with
    | single hc => exact link hc
    | tail _ hc ih => exact (link hc).trans ih
  refine ⟨fun r hr ↦ ?_, fun r _ hr ↦ (path hr).false⟩
  rcases Relation.reflTransGen_iff_eq_or_transGen.1 hr with rfl | hr
  · exact hroot
  · exact (path hr).trans hroot

namespace IsRanked

/-- Trees seen from the part do not depend on the depth to which they are seen. -/
theorem treeTo_eq (h : g.IsRanked part rank) {n m : Nat} (hr : r ∈ part) (hn : rank r < n)
    (hm : rank r < m) : g.treeTo n r = g.treeTo m r := by
  induction n generalizing r m with
  | zero => omega
  | succ n ih =>
    cases m with
    | zero => omega
    | succ m =>
      rw [treeTo, treeTo, Node.map_congr fun c hc ↦ ?_]
      obtain ⟨hp, hlt⟩ := h.below r hr c hc
      exact ih hp (by omega) (by omega)

/-- The tree seen from a node is the node with the trees seen from its children. -/
theorem tree_eq (h : g.IsRanked part rank) (hr : r ∈ part) :
    g.tree r = .mk r ((g.get r).map g.tree) := by
  rw [tree, treeTo, Node.map_congr fun c hc ↦ ?_]
  obtain ⟨hp, hlt⟩ := h.below r hr c hc
  have := h.rank_le r hr
  exact h.treeTo_eq hp (by omega) (by omega)

/-- What passes from the children of a node to the node holds of the part. -/
theorem induction {P : Ref → Prop} (h : g.IsRanked part rank)
    (step : ∀ r ∈ part, (∀ c ∈ g.children r, P c) → P r) (hr : r ∈ part) : P r := by
  induction hn : rank r using Nat.strong_induction_on generalizing r with
  | _ n ih =>
    refine step r hr fun c hc ↦ ?_
    obtain ⟨hp, hlt⟩ := h.below r hr c hc
    exact ih (rank c) (hn ▸ hlt) hp rfl

theorem extend (h : g.IsRanked part rank) (hg : g.Extends g') : g'.IsRanked part rank where
  inUse r hr := (h.inUse r hr).trans_le hg.size_le
  below r hr := by
    rw [children, hg.get_eq (h.inUse r hr)]
    exact h.below r hr
  rank_le r hr := (h.rank_le r hr).trans hg.size_le

/-- Trees seen from the part stay the same when the graph grows. -/
theorem tree_extend (h : g.IsRanked part rank) (hg : g.Extends g') (hr : r ∈ part) :
    g'.tree r = g.tree r := by
  refine h.induction (P := fun r ↦ g'.tree r = g.tree r) (fun r hr ih ↦ ?_) hr
  rw [h.tree_eq hr, (h.extend hg).tree_eq hr, hg.get_eq (h.inUse r hr), Node.map_congr ih]

/-- A node may take other children of lower ranks. -/
theorem set (h : g.IsRanked part rank) {n : Node Ref}
    (hn : ∀ c ∈ n.children, c ∈ part ∧ rank c < rank r) : (g.set r n).IsRanked part rank where
  inUse r' hr := by simpa [Graph.set, size] using h.inUse r' hr
  below r' hr := by
    rw [children, get_set]
    split
    · next he => exact he.1 ▸ hn
    · exact h.below r' hr
  rank_le r' hr := by simpa [Graph.set, size] using h.rank_le r' hr

end IsRanked

end Graph

/-! ### Walks -/

namespace Graph

variable {w : Walk}

/-- A walk enters and leaves only nodes of a part that is closed under links. -/
theorem mem_of_mem_visit (closed : ∀ r ∈ part, ∀ c ∈ g.children r, c ∈ part) {depth : Nat}
    (hr : r ∈ part) (hw : ∀ r' ∈ w.left, r' ∈ part) : ∀ r' ∈ (g.visit depth w r).left, r' ∈ part := by
  induction depth generalizing w r with
  | zero => exact hw
  | succ depth ih =>
    unfold visit
    split
    · exact hw
    · refine List.forall_mem_cons.2 ⟨hr, ?_⟩
      have below {l : List Ref} (hl : ∀ c ∈ l, c ∈ part) {w : Walk} (hw : ∀ r' ∈ w.left, r' ∈ part) :
          ∀ r' ∈ (l.foldl (g.visit depth) w).left, r' ∈ part := by
        induction l generalizing w with
        | nil => exact hw
        | cons c l ihl =>
          rw [List.forall_mem_cons] at hl
          exact ihl hl.2 (ih hl.1 hw)
      exact below (closed r hr) hw

theorem mem_of_mem_postOrder (closed : ∀ r ∈ part, ∀ c ∈ g.children r, c ∈ part)
    (hroot : root ∈ part) : ∀ r ∈ g.postOrder root, r ∈ part := by
  intro r hr
  exact mem_of_mem_visit closed hroot (by simp) r (List.mem_reverse.1 hr)

end Graph

end SqlWright
