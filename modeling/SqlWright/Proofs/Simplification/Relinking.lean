import SqlWright.Dom.Graph.Simplify

/-!
# Actions on graphs

The simplifications replace the links of a node by the results of actions, each of which may add
nodes to the graph. Added nodes leave the others as they are, so what one action found still
holds when the last one is done: `Graph.Keeps` says what an action keeps of a graph, and what is
true of its result from then on.
-/

namespace SqlWright

variable {α β γ : Type} {I : Graph → Prop} {g g' g'' : Graph} {n : Node Ref} {r : Ref}

namespace Graph

/-- One graph has more nodes than the other at most, and otherwise the same. -/
structure Extends (g g' : Graph) : Prop where
  size_le : g.size ≤ g'.size
  get_eq {r : Ref} (h : r < g.size) : g'.get r = g.get r

namespace Extends

theorem refl (g : Graph) : g.Extends g := ⟨Nat.le_refl _, fun _ ↦ rfl⟩

theorem trans (h : g.Extends g') (h' : g'.Extends g'') : g.Extends g'' where
  size_le := Nat.le_trans h.size_le h'.size_le
  get_eq hr := by rw [h'.get_eq (Nat.lt_of_lt_of_le hr h.size_le), h.get_eq hr]

end Extends

/-- A new node leaves the others as they are. -/
theorem extends_add (g : Graph) (n : Node Ref) : g.Extends (g.add n).2 := by
  unfold Graph.add
  split
  · exact .refl g
  · refine ⟨by simp [size], fun hr ↦ ?_⟩
    rw [get, get, Array.getElem?_push_lt hr, Array.getElem?_eq_getElem hr]

/-- A new node stands under the reference that is given to it. -/
theorem get_add (hn : n.isNull = false) :
    (g.add n).1 = g.size ∧ (g.add n).2.size = g.size + 1 ∧ (g.add n).2.get g.size = n := by
  simp [Graph.add, hn, size, get]

/-- The new content of a node is read under its reference alone. -/
theorem get_set {r' : Ref} :
    (g.set r n).get r' = if r = r' ∧ r < g.size then n else g.get r' := by
  rw [get, set, Array.getElem?_setIfInBounds]
  by_cases he : r = r'
  · subst he
    by_cases hr : r < g.size
    · simp [hr, show r < g.nodes.size from hr]
    · simp [hr, get, show ¬r < g.nodes.size from hr]
  · simp [he, get]

/-- An action extends the graph and keeps a property of it, and its result has another one in
every graph that extends the one it leads to. -/
def Keeps (I : Graph → Prop) (m : StateM Graph α) (q : Graph → α → Prop) : Prop :=
  ∀ g, I g → I (m.run g).2 ∧ g.Extends (m.run g).2 ∧
    ∀ g', (m.run g).2.Extends g' → q g' (m.run g).1

namespace Keeps

theorem pure {a : α} {q : Graph → α → Prop} (h : ∀ g, q g a) : Keeps I (pure a) q :=
  fun g hg ↦ ⟨hg, .refl g, fun g' _ ↦ h g'⟩

theorem bind {m : StateM Graph α} {f : α → StateM Graph β} {q : Graph → α → Prop}
    {q' : Graph → β → Prop} (hm : Keeps I m q)
    (hf : ∀ a, Keeps I (f a) fun g b ↦ q g a → q' g b) : Keeps I (m >>= f) q' := by
  intro g hg
  obtain ⟨kept, grown, result⟩ := hm g hg
  obtain ⟨kept', grown', result'⟩ := hf _ _ kept
  exact ⟨kept', grown.trans grown', fun g' h ↦ result' g' h (result g' (grown'.trans h))⟩

theorem mapM_list {f : α → StateM Graph β} {s : α → γ} {t : Graph → β → γ} {l : List α}
    (hf : ∀ a ∈ l, Keeps I (f a) fun g b ↦ t g b = s a) :
    Keeps I (l.mapM f) fun g l' ↦ l'.map (t g) = l.map s := by
  induction l with
  | nil =>
    rw [List.mapM_nil]
    exact pure fun _ ↦ rfl
  | cons a l ih =>
    rw [List.mapM_cons]
    rw [List.forall_mem_cons] at hf
    refine hf.1.bind fun b ↦ (ih hf.2).bind fun bs ↦ pure fun g hbs hb ↦ ?_
    rw [List.map_cons, List.map_cons, hb, hbs]

theorem mapM_option {f : α → StateM Graph β} {s : α → γ} {t : Graph → β → γ} {o : Option α}
    (hf : ∀ a ∈ o.toList, Keeps I (f a) fun g b ↦ t g b = s a) :
    Keeps I (o.mapM f) fun g o' ↦ o'.map (t g) = o.map s := by
  cases o with
  | none =>
    rw [Option.mapM_none]
    exact pure fun _ ↦ rfl
  | some a =>
    rw [Option.mapM_some, ← bind_pure_comp]
    refine (hf a (by simp)).bind fun b ↦ pure fun g hb ↦ ?_
    rw [Option.map_some, Option.map_some, hb]

end Keeps

end Graph

open SqlWright.Graph

section Links

variable {f : α → StateM Graph β} {s : α → γ} {t : Graph → β → γ}

private theorem SortKey.keeps_mapM {k : SortKey α}
    (hf : Keeps I (f k.expr) fun g b ↦ t g b = s k.expr) :
    Keeps I (k.mapM f) fun g k' ↦ k'.map (t g) = k.map s :=
  hf.bind fun _ ↦ .pure fun g h ↦ by rw [SortKey.map, SortKey.map, h]

/-- Replacing the links of a select one after the other leaves a select of their replacements. -/
theorem Select.keeps_mapM {x : Select α}
    (hf : ∀ a ∈ x.children, Keeps I (f a) fun g b ↦ t g b = s a) :
    Keeps I (x.mapM f) fun g x' ↦ x'.map (t g) = x.map s := by
  simp only [Select.children, List.mem_append] at hf
  have column (c : OutputColumn α) (hc : c ∈ x.columns) :
      Keeps I (c.mapM f) fun g c' ↦ c'.map (t g) = c.map s :=
    (hf c.expr (by simp [exprs, List.mem_map_of_mem hc])).bind fun _ ↦
      .pure fun g h ↦ by rw [OutputColumn.map, OutputColumn.map, h]
  have key (k : SortKey α) (hk : k ∈ x.orderBy) :
      Keeps I (k.mapM f) fun g k' ↦ k'.map (t g) = k.map s :=
    SortKey.keeps_mapM (hf k.expr (by simp [List.mem_map_of_mem hk]))
  refine (Keeps.mapM_list column).bind fun _ ↦
    (Keeps.mapM_option fun a ha ↦ hf a (by simp [ha])).bind fun _ ↦
    (Keeps.mapM_option fun a ha ↦ hf a (by simp [ha])).bind fun _ ↦
    (Keeps.mapM_list fun a ha ↦ hf a (by simp [ha])).bind fun _ ↦
    (Keeps.mapM_option fun a ha ↦ hf a (by simp [ha])).bind fun _ ↦
    (Keeps.mapM_list key).bind fun _ ↦
    (Keeps.mapM_option fun a ha ↦ hf a (by simp [ha])).bind fun _ ↦
    (Keeps.mapM_option fun a ha ↦ hf a (by simp [ha])).bind fun _ ↦
    .pure fun g h₈ h₇ h₆ h₅ h₄ h₃ h₂ h₁ ↦ ?_
  simp only [Select.map, h₁, h₂, h₃, h₄, h₅, h₆, h₇, h₈]

/-- Replacing the links of a node one after the other leaves a node of their replacements. -/
theorem Node.keeps_mapM {n : Node α}
    (hf : ∀ a ∈ n.children, Keeps I (f a) fun g b ↦ t g b = s a) :
    Keeps I (n.mapM f) fun g n' ↦ n'.map (t g) = n.map s := by
  cases n with
  | binary op a b | variant key a b =>
    exact (hf a (by simp [children])).bind fun _ ↦ (hf b (by simp [children])).bind fun _ ↦
      .pure fun g hb ha ↦ by rw [map, map, ha, hb]
  | unary op a | cast a type | subquery a | queryRef a label =>
    exact (hf a (by simp [children])).bind fun _ ↦ .pure fun g ha ↦ by rw [map, map, ha]
  | function _ args =>
    rw [children] at hf
    exact (Keeps.mapM_list hf).bind fun _ ↦ .pure fun g h ↦ by rw [map, map, h]
  | aggregate kind distinct operand =>
    exact (Keeps.mapM_option hf).bind fun _ ↦ .pure fun g h ↦ by rw [map, map, h]
  | case branches otherwise =>
    simp only [children, List.mem_append, List.mem_flatMap] at hf
    have branch (b : α × α) (hb : b ∈ branches) :
        Keeps I (do return (← f b.1, ← f b.2)) fun g b' ↦ (t g b'.1, t g b'.2) = (s b.1, s b.2) :=
      (hf b.1 (.inl ⟨b, hb, by simp⟩)).bind fun _ ↦
        (hf b.2 (.inl ⟨b, hb, by simp⟩)).bind fun _ ↦ .pure fun g h₂ h₁ ↦ by rw [h₁, h₂]
    exact (Keeps.mapM_list branch).bind fun _ ↦
      (Keeps.mapM_option fun a ha ↦ hf a (.inr ha)).bind fun _ ↦
      .pure fun g h₂ h₁ ↦ by rw [map, map, h₁, h₂]
  | row items =>
    rw [children] at hf
    exact (Keeps.mapM_list hf).bind fun _ ↦ .pure fun g h ↦ by rw [map, map, h]
  | dynamicFilter id first others =>
    exact (hf first (by simp [children])).bind fun _ ↦
      (Keeps.mapM_list fun a ha ↦ hf a (by simp [children, ha])).bind fun _ ↦
      .pure fun g h₂ h₁ ↦ by rw [map, map, h₁, h₂]
  | rowNumber keys =>
    exact (Keeps.mapM_list fun k hk ↦
      SortKey.keeps_mapM (hf k.expr (List.mem_map_of_mem hk))).bind fun _ ↦
      .pure fun g h ↦ by rw [map, map, h]
  | join kind a b on =>
    exact (hf a (by simp [children])).bind fun _ ↦ (hf b (by simp [children])).bind fun _ ↦
      (Keeps.mapM_option fun c hc ↦ hf c (by simp_all [children])).bind fun _ ↦
      .pure fun g h₃ h₂ h₁ ↦ by rw [map, map, h₁, h₂, h₃]
  | select x => exact (x.keeps_mapM hf).bind fun _ ↦ .pure fun g h ↦ by rw [map, map, h]
  | insert target columns values =>
    exact (hf target (by simp [children])).bind fun _ ↦
      (Keeps.mapM_list fun a ha ↦ hf a (by simp [children, ha])).bind fun _ ↦
      .pure fun g h₂ h₁ ↦ by rw [map, map, h₁, h₂]
  | update target assignments filter =>
    simp only [children, List.cons_append, List.mem_cons, List.mem_append, List.mem_map] at hf
    have assignment (a : String × α) (ha : a ∈ assignments) :
        Keeps I (do return (a.1, ← f a.2)) fun g a' ↦ (a'.1, t g a'.2) = (a.1, s a.2) :=
      (hf a.2 (.inr (.inl ⟨a, ha, rfl⟩))).bind fun _ ↦ .pure fun g h ↦ by rw [h]
    exact (hf target (.inl rfl)).bind fun _ ↦ (Keeps.mapM_list assignment).bind fun _ ↦
      (Keeps.mapM_option fun a ha ↦ hf a (.inr (.inr ha))).bind fun _ ↦
      .pure fun g h₃ h₂ h₁ ↦ by rw [map, map, h₁, h₂, h₃]
  | delete target filter =>
    exact (hf target (by simp [children])).bind fun _ ↦
      (Keeps.mapM_option fun a ha ↦ hf a (by simp_all [children])).bind fun _ ↦
      .pure fun g h₂ h₁ ↦ by rw [map, map, h₁, h₂]
  | _ => exact .pure fun _ ↦ rfl

/-- Relinking extends the graph, and then at most the node takes new links. -/
theorem Graph.exists_relinkChildren {f : Ref → StateM Graph Ref} {s : Ref → γ}
    {t : Graph → Ref → γ} (hg : I g)
    (hf : ∀ c ∈ g.children r, Keeps I (f c) fun g c' ↦ t g c' = s c) :
    ∃ g' n, I g' ∧ g.Extends g' ∧ n.map (t g') = (g.get r).map s ∧
      ((g.relinkChildren r f).2 = g' ∨ (g.relinkChildren r f).2 = g'.set r n) := by
  obtain ⟨kept, grown, result⟩ := Node.keeps_mapM hf g hg
  rcases hm : ((g.get r).mapM f).run g with ⟨new, g'⟩
  rw [hm] at kept grown result
  refine ⟨g', new, kept, grown, result g' (.refl g'), ?_⟩
  simp only [relinkChildren, hm]
  split
  · exact .inl rfl
  · exact .inr rfl

end Links

namespace Simplification

/-- A node that stands in for another is one of its children. -/
theorem mem_children_of_replacement? {p : Simplification} {o : Ref}
    (h : p.replacement? g r = some (.existing o)) : o ∈ g.children r := by
  have fold {identity : Bool} {left right : Ref}
      (h : (foldConnective g identity left right).map Replacement.existing = some (.existing o)) :
      o ∈ [left, right] := by
    obtain ⟨o', ho, same⟩ := Option.map_eq_some_iff.1 h
    cases same
    unfold foldConnective at ho
    grind
  unfold replacement? at h
  rw [children]
  split at h
  · next left right hn =>
    rw [hn]
    exact fold h
  · next left right hn =>
    rw [hn]
    exact fold h
  · obtain ⟨b, -, same⟩ := Option.map_eq_some_iff.1 h
    cases same
  · next operand type hn =>
    split at h
    · split at h
      · cases h
        rw [hn]
        exact List.mem_singleton_self _
      · cases h
    · cases h
  · cases h

/-- A substitute is a node of the graph or a new one. -/
theorem extends_substitute (p : Simplification) (g : Graph) (r : Ref) :
    g.Extends (p.substitute r g).2 := by
  unfold substitute
  split
  · exact .refl g
  · exact g.extends_add _
  · exact .refl g

/-- What relinking each of the nodes keeps is kept when all are done. -/
theorem substituteLinks_keeps {p : Simplification} {nodes : List Ref} (hg : I g)
    (step : ∀ r ∈ nodes, ∀ g, I g → I (g.relinkChildren r p.substitute).2) :
    I (p.substituteLinks g nodes).2 := by
  unfold substituteLinks
  generalize 0 = count
  induction nodes generalizing g count with
  | nil => exact hg
  | cons r nodes ih =>
    rw [List.forall_mem_cons] at step
    exact ih (step.1 g hg) step.2 _

/-- The count of redirected links goes on from that of the nodes before. -/
theorem substituteLinks_cons (p : Simplification) (g : Graph) (r : Ref) (nodes : List Ref) :
    p.substituteLinks g (r :: nodes) =
      ((g.relinkChildren r p.substitute).1 +
          (p.substituteLinks (g.relinkChildren r p.substitute).2 nodes).1,
        (p.substituteLinks (g.relinkChildren r p.substitute).2 nodes).2) := by
  let step : Nat × Graph → Ref → Nat × Graph := fun done r ↦
    (done.1 + (done.2.relinkChildren r p.substitute).1,
      (done.2.relinkChildren r p.substitute).2)
  have folded (g : Graph) (nodes : List Ref) : p.substituteLinks g nodes = nodes.foldl step (0, g) :=
    rfl
  have counted (count : Nat) (g : Graph) :
      nodes.foldl step (count, g) =
        (count + (nodes.foldl step (0, g)).1, (nodes.foldl step (0, g)).2) := by
    induction nodes generalizing count g with
    | nil => rfl
    | cons r nodes ih =>
      rw [List.foldl_cons, List.foldl_cons, ih, ih (step (0, g) r).1]
      simp only [step, Nat.zero_add, Nat.add_assoc]
  rw [folded, folded, List.foldl_cons, counted]
  simp only [step, Nat.zero_add]

end Simplification

end SqlWright
