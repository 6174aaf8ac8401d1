import SqlWright.Proofs.Walks.PostOrder

/-!
# What walks reach

A walk from a root enters what links lead to from there, and nothing else. So the parameters that it
collects are those of the reached nodes, each once, and cycles do no harm.
-/

namespace SqlWright

namespace Graph

variable {g : Graph} {w u v : Walk} {root r : Ref} {rs : List Ref}

/-- Nodes from which no link leads to a node that is not entered. -/
def IsClosed (g : Graph) (nodes entered : List Ref) : Prop :=
  ∀ x ∈ nodes, ∀ c ∈ g.children x, c ∈ entered

namespace Walks

/-- A walk enters the nodes that it goes on to. -/
theorem subset_entered (h : g.Walks w rs v) : rs ⊆ v.entered := by
  induction h with
  | nil w => exact List.nil_subset _
  | skip old rest ih => exact List.cons_subset.2 ⟨rest.entered_subset old, ih⟩
  | enter new below rest _ ih =>
    exact List.cons_subset.2 ⟨rest.entered_subset (below.entered_subset List.mem_cons_self), ih⟩

/-- Whatever a walk enters is reached from the nodes that it goes on to. -/
theorem reached (h : g.Walks w rs v) :
    ∀ x ∈ v.entered, x ∈ w.entered ∨ ∃ r ∈ rs, g.Reaches r x := by
  induction h with
  | nil w => exact fun x hx ↦ .inl hx
  | skip old _ ih =>
    intro x hx
    obtain old | ⟨r, hr, path⟩ := ih x hx
    · exact .inl old
    · exact .inr ⟨r, List.mem_cons_of_mem _ hr, path⟩
  | @enter w u v r rs new _ _ ihBelow ihRest =>
    intro x hx
    obtain before | ⟨r', hr', path⟩ := ihRest x hx
    · obtain before | ⟨c, hc, path⟩ := ihBelow x before
      · obtain rfl | old := List.mem_cons.1 before
        · exact .inr ⟨x, List.mem_cons_self, .refl⟩
        · exact .inl old
      · exact .inr ⟨r, List.mem_cons_self, path.head hc⟩
    · exact .inr ⟨r', List.mem_cons_of_mem _ hr', path⟩

/-- A node is left only when its children are entered. -/
theorem isClosed (h : g.Walks w rs v) (before : g.IsClosed w.left w.entered) :
    g.IsClosed v.left v.entered := by
  induction h with
  | nil w => exact before
  | skip _ _ ih => exact ih before
  | enter new below _ ihBelow ihRest =>
    refine ihRest (List.forall_mem_cons.2 ⟨below.subset_entered, ihBelow ?_⟩)
    exact fun x hx c hc ↦ List.mem_cons_of_mem _ (before x hx c hc)

end Walks

/-- A walk from a root enters exactly what is reached from there. -/
theorem mem_preOrder {x : Ref} : x ∈ g.preOrder root ↔ g.Reaches root x := by
  have walks := g.walks_walk root
  rw [preOrder, List.mem_reverse]
  constructor
  · intro hx
    obtain ⟨r, hr, path⟩ := (walks.reached x hx).resolve_left nofun
    rwa [List.mem_singleton.1 hr] at path
  · intro path
    obtain ⟨new, left, entered, -⟩ := walks.exists_left_eq
    rw [List.append_nil] at left
    have closed : g.IsClosed (g.walk root).left (g.walk root).entered :=
      walks.isClosed fun _ hx ↦ absurd hx List.not_mem_nil
    induction path with
    | refl => exact walks.subset_entered List.mem_cons_self
    | tail _ link ih =>
      have isLeft := ((entered _).1 ih).resolve_right List.not_mem_nil
      exact closed _ (left ▸ isLeft) _ link

/-- A walk from a root leaves exactly what is reached from there. -/
theorem mem_postOrder {x : Ref} : x ∈ g.postOrder root ↔ g.Reaches root x := by
  obtain ⟨new, left, entered, -⟩ := (g.walks_walk root).exists_left_eq
  rw [List.append_nil] at left
  rw [← mem_preOrder, postOrder, preOrder, List.mem_reverse, List.mem_reverse, entered, left]
  simp

/-! ### Parameters -/

theorem mem_insertParameter {ps : List Parameter} {p : Parameter} {i : Nat} :
    i ∈ (insertParameter ps p).map (·.id) ↔ i ∈ ps.map (·.id) ∨ i = p.id := by
  unfold insertParameter
  split
  next known =>
    obtain ⟨q, hq, same⟩ := List.any_eq_true.1 known
    have mem : p.id ∈ ps.map (·.id) := List.mem_map.2 ⟨q, hq, eq_of_beq same⟩
    exact ⟨.inl, fun h ↦ h.elim (fun h ↦ h) fun h ↦ h ▸ mem⟩
  next => rw [List.map_append, List.mem_append, List.map_singleton, List.mem_singleton]

theorem nodup_insertParameter {ps : List Parameter} (h : (ps.map (·.id)).Nodup) (p : Parameter) :
    ((insertParameter ps p).map (·.id)).Nodup := by
  unfold insertParameter
  split
  next => exact h
  next unknown =>
    have new : p.id ∉ ps.map (·.id) := by
      rintro mem
      obtain ⟨q, hq, same⟩ := List.mem_map.1 mem
      exact unknown (List.any_eq_true.2 ⟨q, hq, beq_iff_eq.2 same⟩)
    rw [List.map_append]
    exact h.append (List.nodup_singleton _) (List.disjoint_singleton.2 new)

/-- Collecting parameters one after the other keeps their identities, each once. -/
theorem collected_ids (qs ps : List Parameter) (h : (ps.map (·.id)).Nodup) :
    ((qs.foldl insertParameter ps).map (·.id)).Nodup ∧
      ∀ i, i ∈ (qs.foldl insertParameter ps).map (·.id) ↔
        i ∈ ps.map (·.id) ∨ i ∈ qs.map (·.id) := by
  induction qs generalizing ps with
  | nil => exact ⟨h, by simp⟩
  | cons q qs ih =>
    obtain ⟨nodup, mem⟩ := ih _ (nodup_insertParameter h q)
    refine ⟨nodup, fun i ↦ (mem i).trans ?_⟩
    rw [mem_insertParameter, List.map_cons, List.mem_cons, or_assoc]

theorem nodup_parameters : ((g.parameters root).map (·.id)).Nodup :=
  (collected_ids _ [] List.nodup_nil).1

theorem parameter?_eq_some {n : Node Ref} {p : Parameter} : parameter? n = some p ↔
    n = .parameter p ∨ ∃ main alternative, n = .variant (.isNull p) main alternative := by
  unfold parameter?
  split
  next q => simp
  next q main alternative => simp
  next hp hv =>
    refine ⟨nofun, ?_⟩
    rintro (rfl | ⟨main, alternative, rfl⟩)
    · exact (hp p rfl).elim
    · exact (hv p main alternative rfl).elim

/-- The parameters collected from a root are those of the reached nodes. -/
theorem mem_parameters {i : Nat} : i ∈ (g.parameters root).map (·.id) ↔
    ∃ r p, g.Reaches root r ∧ p.id = i ∧ (g.get r = .parameter p ∨
      ∃ main alternative, g.get r = .variant (.isNull p) main alternative) := by
  rw [parameters, (collected_ids _ [] List.nodup_nil).2]
  simp only [List.map_nil, List.not_mem_nil, false_or, List.mem_map, List.mem_filterMap,
    mem_preOrder, parameter?_eq_some]
  constructor
  · rintro ⟨p, ⟨r, path, spoken⟩, same⟩
    exact ⟨r, p, path, same, spoken⟩
  · rintro ⟨r, p, path, same, spoken⟩
    exact ⟨p, ⟨r, path, spoken⟩, same⟩

end Graph

end SqlWright
