import SqlWright.Proofs.Editing.Kinds
import SqlWright.Proofs.Simplification.NormalForms

/-!
# Links that are rewritten

Rewriting the links of a node calls a function on the children that the node lists, from the first
to the last. Afterwards the children are what came of the calls and the node holds the same besides
(`Graph.rewriteChildren_relinks`); where no link changed, nothing was touched. What the function
does to the other nodes and to a state of its own is what its calls do.
-/

namespace SqlWright

variable {σ : Type} {g g₁ : Graph} {s s₁ : σ} {r : Ref} {links : List Ref}

namespace Graph

/-- The links of a node were replaced, and `count` of them changed: the node has the payload that
it had, the other nodes are as they were, and if no link changed the node is as well. -/
structure Relinked (g : Graph) (r : Ref) (links : List Ref) (count : Nat) (g' : Graph) : Prop where
  children : g'.children r = links
  payload : (g'.get r).payload = (g.get r).payload
  others : ∀ x ≠ r, g'.get x = g.get x
  size : g'.size = g.size
  changed : count = ((g.children r).zip links).countP fun p ↦ p.1 ≠ p.2
  untouched : count = 0 → g' = g

/-- A node has as many links as any node of its payload. -/
theorem length_children_of_payload {n m : Node Ref} (h : n.payload = m.payload) :
    n.children.length = m.children.length := by
  have links := congrArg (List.length ∘ Node.children) h
  simpa [Node.payload] using links

/-- Rewriting the links of a node acts on them as the calls on its children do, if these leave the
node itself as it is. -/
theorem run_rewriteChildren {f : Ref → Action σ Ref}
    (called : ((g.children r).mapM f).run (g, s) = (links, g₁, s₁)) (kept : g₁.get r = g.get r) :
    ∃ n g', (rewriteChildren r f).run (g, s) = (n, g', s₁) ∧ Relinked g₁ r links n g' := by
  obtain ⟨state, made, payload⟩ := (g.get r).visits_mapM (f := f) (g, s)
  rw [← Graph.children, called] at state made
  rcases hm : ((g.get r).mapM f).run (g, s) with ⟨new, g₂, s₂⟩
  rw [hm] at state made payload
  obtain ⟨rfl, rfl⟩ := Prod.mk.inj state
  have made : new.children = links := made
  have payload : new.payload = (g.get r).payload := payload
  subst made
  simp only [StateT.run] at hm
  simp only [rewriteChildren, StateT.run, hm]
  by_cases unchanged : changedLinks (g.get r).children new.children = 0
  · have same := eq_of_changedLinks (length_children_of_payload payload) unchanged
    rw [if_pos unchanged]
    refine ⟨0, g₂, rfl, ?_, congrArg _ rfl, fun _ _ ↦ rfl, rfl, ?_, fun _ ↦ rfl⟩
    · rw [children, kept, same]
    · rw [children, kept]
      exact unchanged.symm
  · have inUse : r < g₂.size := by
      by_contra beyond
      have none := children_of_size_le (Nat.le_of_not_lt beyond)
      rw [children, kept] at none
      rw [none] at unchanged
      exact unchanged rfl
    rw [if_neg unchanged]
    refine ⟨_, _, rfl, ?_, ?_, ?_, ?_, ?_, fun none ↦ absurd none unchanged⟩
    · rw [children, get_set, if_pos ⟨rfl, inUse⟩]
    · rw [get_set, if_pos ⟨rfl, inUse⟩, kept, payload]
    · intro x hx
      rw [get_set, if_neg fun same ↦ hx same.1.symm]
    · exact KeepsKinds.size_set ..
    · rw [children, kept]
      rfl

/-- A function on references as an action that notes what it is called on. -/
def noting (f : Ref → Ref) (r : Ref) : Action (List Ref) Ref := fun (g, calls) ↦
  (f r, g, calls ++ [r])

theorem run_mapM_noting (f : Ref → Ref) (l calls : List Ref) :
    (l.mapM (noting f)).run (g, calls) = (l.map f, g, calls ++ l) := by
  induction l generalizing calls with
  | nil =>
    rw [List.mapM_nil, List.append_nil]
    rfl
  | cons c l ih =>
    have first : (noting f c).run (g, calls) = (f c, g, calls ++ [c]) := rfl
    rw [List.mapM_cons, run_andThen, first, run_andThen, ih, List.append_assoc]
    rfl

/-- Rewriting the links of a node calls the function on exactly the children of the node, in their
order, and the children are then the results of the calls; all else in the node is kept, other
nodes are as they were, the number is that of the links that changed, and if it is zero nothing is
touched. The same holds of a function that keeps a state or acts on other nodes: what it does is
what the calls on the children do one after the other. -/
theorem rewriteChildren_relinks (g : Graph) (r : Ref) :
    (∀ (f : Ref → Ref) (calls : List Ref), ∃ n g',
      (rewriteChildren r (noting f)).run (g, calls) = (n, g', calls ++ g.children r) ∧
        Relinked g r ((g.children r).map f) n g') ∧
    ∀ {σ : Type} (f : Ref → Action σ Ref) (s : σ) (links : List Ref) (g₁ : Graph) (s₁ : σ),
      ((g.children r).mapM f).run (g, s) = (links, g₁, s₁) → g₁.get r = g.get r →
        ∃ n g', (rewriteChildren r f).run (g, s) = (n, g', s₁) ∧ Relinked g₁ r links n g' :=
  ⟨fun f calls ↦ run_rewriteChildren (run_mapM_noting f (g.children r) calls) rfl,
    fun _ _ _ _ _ ↦ run_rewriteChildren⟩

/-- Three columns, and a case of them in which the second column stands twice. -/
def branches : Graph :=
  ⟨#[.null, .column none "x", .column none "y", .column none "z", .case [(1, 2), (2, 3)] (some 1)]⟩

/-- A node put in a new row, as an action that counts the rows. -/
def inRow (r : Ref) : Action Nat Ref := fun (g, count) ↦
  let (row, g) := g.add (.row [r])
  (row, g, count + 1)

/-- In a case, two links change where the third column takes the place of the second, and all five
where each branch is put in a row. -/
theorem rewriteChildren_relinks_of_branches :
    (∃ g', (rewriteChildren 4 (noting fun r ↦ if r = 2 then 3 else r)).run (branches, []) =
        (2, g', [1, 2, 2, 3, 1]) ∧
      Relinked branches 4 [1, 3, 3, 3, 1] 2 g') ∧
    ∃ g', (rewriteChildren 4 inRow).run (branches, 0) = (5, g', 5) ∧
      g'.children 4 = [5, 6, 7, 8, 9] ∧ g'.get 5 = .row [1] := by
  obtain ⟨pure, acting⟩ := rewriteChildren_relinks branches 4
  constructor
  · obtain ⟨n, g', run, relinked⟩ := pure (fun r ↦ if r = 2 then 3 else r) []
    have changed : n = 2 := relinked.changed
    rw [changed] at run relinked
    exact ⟨g', run, relinked⟩
  · obtain ⟨n, g', run, relinked⟩ := acting inRow 0 _ _ _ rfl rfl
    have changed : n = 5 := relinked.changed
    rw [changed] at run
    exact ⟨g', run, relinked.children, relinked.others 5 (by decide)⟩

end Graph

end SqlWright
