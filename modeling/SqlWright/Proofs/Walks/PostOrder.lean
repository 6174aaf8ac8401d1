import SqlWright.Proofs.Simplification.Ranks

/-!
# Walks from the bottom up

A walk never runs out of depth, since it enters another node with each step down. So it is
what it would be without a bound, which is the relation `Graph.Walks`. What is proved by induction
on that relation holds of the orders that walks give: no node comes twice, and without cycles a
node comes after its children.
-/

namespace SqlWright

namespace Graph

variable {g : Graph} {w u v : Walk} {part : Set Ref} {rank : Ref → Nat} {root r : Ref}
  {rs rs' : List Ref}

/-- A walk goes on to nodes one after the other, and to what is below each of them. -/
inductive Walks (g : Graph) : Walk → List Ref → Walk → Prop
  | nil (w : Walk) : g.Walks w [] w
  | skip {w v : Walk} {r : Ref} {rs : List Ref} (old : r ∈ w.entered) (rest : g.Walks w rs v) :
    g.Walks w (r :: rs) v
  | enter {w u v : Walk} {r : Ref} {rs : List Ref} (new : r ∉ w.entered)
    (below : g.Walks { w with entered := r :: w.entered } (g.children r) u)
    (rest : g.Walks { u with left := r :: u.left } rs v) : g.Walks w (r :: rs) v

namespace Walks

theorem append (h : g.Walks w rs u) (h' : g.Walks u rs' v) : g.Walks w (rs ++ rs') v := by
  induction h with
  | nil w => exact h'
  | skip old _ ih => exact .skip old (ih h')
  | enter new below _ _ ih => exact .enter new below (ih h')

/-- The nodes that are entered are left again, each once, and no others. -/
theorem exists_left_eq (h : g.Walks w rs v) :
    ∃ new, v.left = new ++ w.left ∧ (∀ x, x ∈ v.entered ↔ x ∈ new ∨ x ∈ w.entered) ∧
      new.Nodup ∧ ∀ x ∈ new, x ∉ w.entered := by
  induction h with
  | nil w => exact ⟨[], rfl, by simp, .nil, by simp⟩
  | skip _ _ ih => exact ih
  | @enter w u v r rs fresh _ _ ihBelow ihRest =>
    obtain ⟨lower, leftLower, enteredLower, nodupLower, newLower⟩ := ihBelow
    obtain ⟨later, leftLater, enteredLater, nodupLater, newLater⟩ := ihRest
    simp only [List.mem_cons, not_or] at enteredLower enteredLater newLower newLater
    refine ⟨later ++ r :: lower, by simp [leftLater, leftLower], fun x ↦ ?_, ?_, fun x hx ↦ ?_⟩
    · simp only [enteredLater, enteredLower, List.mem_append, List.mem_cons]
      tauto
    · refine nodupLater.append (nodupLower.cons fun mem ↦ (newLower r mem).1 rfl) fun x hx hx' ↦ ?_
      refine newLater x hx ((enteredLower x).2 ?_)
      rcases List.mem_cons.1 hx' with rfl | lower
      · exact .inr (.inl rfl)
      · exact .inl lower
    · rcases List.mem_append.1 hx with hx | hx
      · exact fun old ↦ newLater x hx ((enteredLower x).2 (.inr (.inr old)))
      · rcases List.mem_cons.1 hx with rfl | hx
        · exact fresh
        · exact (newLower x hx).2

theorem entered_subset (h : g.Walks w rs v) : w.entered ⊆ v.entered := by
  obtain ⟨new, -, entered, -⟩ := h.exists_left_eq
  exact fun x hx ↦ (entered x).2 (.inr hx)

theorem left_subset (h : g.Walks w rs v) : w.left ⊆ v.left := by
  obtain ⟨new, left, -⟩ := h.exists_left_eq
  rw [left]
  exact List.subset_append_right new w.left

end Walks

/-! ### Depth -/

/-- Number of nodes that a walk has not entered. -/
def unentered (g : Graph) (w : Walk) : Nat := (Finset.range g.size \ w.entered.toFinset).card

theorem unentered_le (h : w.entered ⊆ v.entered) : g.unentered v ≤ g.unentered w := by
  refine Finset.card_le_card (Finset.sdiff_subset_sdiff (Finset.Subset.refl _) fun x hx ↦ ?_)
  exact List.mem_toFinset.2 (h (List.mem_toFinset.1 hx))

theorem unentered_lt (inUse : r < g.size) (new : r ∉ w.entered) :
    g.unentered { w with entered := r :: w.entered } < g.unentered w := by
  refine Finset.card_lt_card (Finset.ssubset_iff_of_subset ?_ |>.2 ⟨r, ?_, ?_⟩)
  · exact Finset.sdiff_subset_sdiff (Finset.Subset.refl _) fun x hx ↦ by
      rw [List.toFinset_cons]
      exact Finset.mem_insert_of_mem hx
  · simp [inUse, new]
  · simp

/-- The depth is no bound on a walk that may enter all nodes, be there cycles or not. -/
theorem walks_visit {depth : Nat} (enough : g.unentered w < depth) :
    g.Walks w [r] (g.visit depth w r) := by
  induction depth generalizing w r with
  | zero => exact (Nat.not_lt_zero _ enough).elim
  | succ depth ih =>
    have children {l : List Ref} {w : Walk} (enough : g.unentered w < depth) :
        g.Walks w l (l.foldl (g.visit depth) w) := by
      induction l generalizing w with
      | nil => exact .nil w
      | cons c l ihl =>
        have first := ih (r := c) enough
        exact first.append (ihl ((unentered_le first.entered_subset).trans_lt enough))
    unfold visit
    split
    · next old => exact .skip old (.nil w)
    · next new =>
      by_cases inUse : r < g.size
      · have fewer := unentered_lt inUse new
        exact .enter new (children (by omega)) (.nil _)
      · have leaf : g.children r = [] := children_of_size_le (Nat.le_of_not_lt inUse)
        refine .enter new ?_ (.nil _)
        rw [leaf]
        exact .nil _

/-- A walk from a root ends by itself. -/
theorem walks_walk (g : Graph) (root : Ref) : g.Walks {} [root] (g.walk root) :=
  walks_visit (by simp [unentered])

/-! ### Children first -/

/-- The children of each listed node are listed after it. -/
def IsBottomUp (g : Graph) : List Ref → Prop
  | [] => True
  | r :: rest => (∀ c ∈ g.children r, c ∈ rest) ∧ g.IsBottomUp rest

/-- Nodes that are entered but not left stand above those that are visited, so all children are
left before their node is. -/
theorem Walks.isBottomUp (h : g.Walks w rs v) (ranked : g.IsRanked part rank)
    (visited : ∀ r ∈ rs, r ∈ part)
    (above : ∀ x ∈ w.entered, x ∈ w.left ∨ ∀ r ∈ rs, rank r < rank x)
    (before : g.IsBottomUp w.left) : g.IsBottomUp v.left ∧ ∀ r ∈ rs, r ∈ v.left := by
  induction h with
  | nil w => exact ⟨before, by simp⟩
  | @skip w v r rs old rest ih =>
    simp only [List.forall_mem_cons] at visited above
    obtain ⟨bottomUp, mem⟩ := ih visited.2 (fun x hx ↦ (above x hx).imp_right And.right) before
    refine ⟨bottomUp, List.forall_mem_cons.2 ⟨?_, mem⟩⟩
    rcases above r old with left | ⟨lower, -⟩
    · exact rest.left_subset left
    · exact (lower.false).elim
  | @enter w u v r rs new below rest ihBelow ihRest =>
    simp only [List.forall_mem_cons] at visited above
    have children := ranked.below r visited.1
    have aboveBelow : ∀ x ∈ r :: w.entered, x ∈ w.left ∨ ∀ c ∈ g.children r, rank c < rank x := by
      rw [List.forall_mem_cons]
      refine ⟨.inr fun c hc ↦ (children c hc).2, fun x hx ↦ ?_⟩
      exact (above x hx).imp_right fun hx c hc ↦ (children c hc).2.trans hx.1
    obtain ⟨lower, mem⟩ := ihBelow (fun c hc ↦ (children c hc).1) aboveBelow before
    have aboveRest : ∀ x ∈ u.entered, x ∈ r :: u.left ∨ ∀ r' ∈ rs, rank r' < rank x := by
      obtain ⟨added, left, entered, -⟩ := below.exists_left_eq
      intro x hx
      rw [entered, List.mem_cons] at hx
      rcases hx with hx | rfl | hx
      · exact .inl (List.mem_cons_of_mem r (left ▸ List.mem_append_left _ hx))
      · exact .inl List.mem_cons_self
      · exact (above x hx).imp (fun hx ↦ List.mem_cons_of_mem r (below.left_subset hx)) And.right
    obtain ⟨bottomUp, memRest⟩ := ihRest visited.2 aboveRest ⟨mem, lower⟩
    exact ⟨bottomUp, List.forall_mem_cons.2 ⟨rest.left_subset List.mem_cons_self, memRest⟩⟩

/-- A walk leaves its root last. -/
theorem exists_left_walk (g : Graph) (root : Ref) : ∃ below, (g.walk root).left = root :: below := by
  have walks := g.walks_walk root
  generalize g.walk root = w at walks
  cases walks with
  | skip old => cases old
  | enter _ _ rest =>
    cases rest
    exact ⟨_, rfl⟩

theorem nodup_left_walk (g : Graph) (root : Ref) : (g.walk root).left.Nodup := by
  obtain ⟨new, left, -, nodup, -⟩ := (g.walks_walk root).exists_left_eq
  rw [left, List.append_nil]
  exact nodup

/-- Without cycles all nodes below a root come once, each after its children, and the root comes
last. -/
theorem IsRanked.exists_postOrder (ranked : g.IsRanked part rank) (hroot : root ∈ part) :
    ∃ below, g.postOrder root = (root :: below).reverse ∧ (root :: below).Nodup ∧
      g.IsBottomUp (root :: below) := by
  obtain ⟨bottomUp, -⟩ :=
    (g.walks_walk root).isBottomUp ranked (by simpa using hroot) (by simp) trivial
  obtain ⟨below, last⟩ := g.exists_left_walk root
  exact ⟨below, by rw [postOrder, last], last ▸ g.nodup_left_walk root, last ▸ bottomUp⟩

end Graph

end SqlWright
