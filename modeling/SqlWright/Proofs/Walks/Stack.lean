import SqlWright.Proofs.Walks.Reached

/-!
# Walks by a stack

A walk can be made without recursion, by a stack of nodes that are to be entered and of nodes that
are to be left. A node may lie on the stack more than once, and it is entered only when it is first
taken off. Task by task this does what `Graph.Walks` says. So the stack runs empty, and it leaves
what is reached from a root in post order: each node once, the root last, and without cycles the
children of a node before the node.
-/

namespace SqlWright

namespace Graph

variable {g : Graph} {w v : Walk} {root : Ref} {rs : List Ref}

/-- What is still to be done with a node. -/
inductive Task where
  | enter (r : Ref)
  | leave (r : Ref)

/-- Walk so far and what is still to be done, the next task first. -/
structure Agenda where
  tasks : List Task
  walk : Walk := {}

/-- Agenda after its next task, if there is one. A node that is entered puts its children on the
stack, and itself to be left after them. -/
def next? (g : Graph) (a : Agenda) : Option Agenda :=
  match a.tasks with
  | [] => none
  | .leave r :: rest => some ⟨rest, { a.walk with left := r :: a.walk.left }⟩
  | .enter r :: rest =>
    if r ∈ a.walk.entered then some ⟨rest, a.walk⟩
    else some ⟨(g.children r).map .enter ++ .leave r :: rest,
      { a.walk with entered := r :: a.walk.entered }⟩

/-- Tasks done one after the other lead from the first agenda to the second. -/
def Performs (g : Graph) : Agenda → Agenda → Prop :=
  Relation.ReflTransGen fun a b ↦ g.next? a = some b

/-- What a walk does on to some nodes, the stack does that has them on top; the tasks below wait. -/
theorem Walks.performs (h : g.Walks w rs v) (rest : List Task) :
    g.Performs ⟨rs.map .enter ++ rest, w⟩ ⟨rest, v⟩ := by
  induction h generalizing rest with
  | nil w => exact .refl
  | @skip w v r rs old _ ih =>
    have taken : g.next? ⟨.enter r :: (rs.map .enter ++ rest), w⟩ =
        some ⟨rs.map .enter ++ rest, w⟩ := if_pos old
    exact .head taken (ih rest)
  | @enter w u v r rs new _ _ ihBelow ihRest =>
    have opened : g.next? ⟨.enter r :: (rs.map .enter ++ rest), w⟩ =
        some ⟨(g.children r).map .enter ++ .leave r :: (rs.map .enter ++ rest),
          { w with entered := r :: w.entered }⟩ := if_neg new
    have closed : g.next? ⟨.leave r :: (rs.map .enter ++ rest), u⟩ =
        some ⟨rs.map .enter ++ rest, { u with left := r :: u.left }⟩ := rfl
    exact .head opened ((ihBelow _).trans (.head closed (ihRest rest)))

/-- In a list from the bottom up, what follows a node holds its children. -/
theorem IsBottomUp.mem_of_eq_append {l above below : List Ref} {r c : Ref} (h : g.IsBottomUp l)
    (hl : l = above ++ r :: below) (hc : c ∈ g.children r) : c ∈ below := by
  induction above generalizing l with
  | nil =>
    subst hl
    exact h.1 c hc
  | cons x above ih =>
    subst hl
    exact ih h.2 rfl

/-- A stack that holds the root alone runs empty, be there cycles or not, and has then left the
nodes in post order. These are the nodes that are reached from the root, each once and the root
last. Without cycles the children of a node are listed before it. -/
theorem postOrder_lists (g : Graph) (root : Ref) :
    (∃ entered, g.Performs ⟨[.enter root], {}⟩ ⟨[], ⟨entered, (g.postOrder root).reverse⟩⟩) ∧
      (g.postOrder root).Nodup ∧
      (∀ r, r ∈ g.postOrder root ↔ g.Reaches root r) ∧
      (g.postOrder root).getLast? = some root ∧
      (g.IsAcyclicFrom root → ∀ before r after, g.postOrder root = before ++ r :: after →
        ∀ c ∈ g.children r, c ∈ before) := by
  refine ⟨⟨(g.walk root).entered, ?_⟩, ?_, fun r ↦ mem_postOrder, ?_, ?_⟩
  · rw [postOrder, List.reverse_reverse]
    exact (g.walks_walk root).performs []
  · exact List.nodup_reverse.2 (g.nodup_left_walk root)
  · obtain ⟨below, last⟩ := g.exists_left_walk root
    rw [postOrder, last, List.getLast?_reverse, List.head?_cons]
  · intro acyclic before r after split c hc
    obtain ⟨below, order, -, bottomUp⟩ := acyclic.isRanked.exists_postOrder .refl
    have reversed : root :: below = after.reverse ++ r :: before.reverse :=
      calc
        root :: below = (g.postOrder root).reverse := by rw [order, List.reverse_reverse]
        _ = after.reverse ++ r :: before.reverse := by simp [split]
    exact List.mem_reverse.1 (bottomUp.mem_of_eq_append reversed hc)

/-- Sum of a negated column and of the column itself. -/
def negatedSum : Graph where
  nodes := #[.null, .column none "a", .unary .negate 1, .binary .plus 2 1]

/-- The column waits on the stack below the negation when the negation puts it there again. It is
listed once and before both nodes that share it. -/
theorem postOrder_lists_of_negatedSum : negatedSum.IsAcyclicFrom 3 ∧
    (∃ entered, negatedSum.Performs ⟨[.enter 3], {}⟩ ⟨[], ⟨entered, [3, 2, 1]⟩⟩) ∧
      negatedSum.postOrder 3 = [1, 2] ++ 3 :: [] ∧ ∀ c ∈ negatedSum.children 3, c ∈ [1, 2] := by
  have acyclic : negatedSum.IsAcyclicFrom 3 := isAcyclicFrom_of_lt (by decide) (by decide)
  obtain ⟨performed, -, -, -, ordered⟩ := postOrder_lists negatedSum 3
  exact ⟨acyclic, performed, rfl, ordered acyclic _ _ _ rfl⟩

/-- A node below itself is listed after the others. -/
example : (Graph.mk #[.null, .binary .plus 1 2, .column none "a"]).postOrder 1 = [2, 1] := rfl

end Graph

end SqlWright
