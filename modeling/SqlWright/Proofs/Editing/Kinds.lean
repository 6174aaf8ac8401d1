import SqlWright.Proofs.Copying.Images
import SqlWright.Proofs.Editing.Passes

/-!
# Kinds of nodes

Whatever is done to a graph, its nodes keep their kinds and zero stays the only null node. A step
either adds nodes or gives a node the content of one of its own kind (`Graph.KeepsKinds`); copying
does so as well once it ends, while the nodes that it has reserved are null on the way.
-/

namespace SqlWright

variable {σ α β : Type} {g g' g'' g₁ g₂ : Graph} {n : Node Ref} {r other : Ref} {s : σ}

theorem Node.kind_eq_null : n.kind = .null ↔ n = .null := by
  cases n <;> simp [Node.kind]

theorem Node.isNull_iff : n.isNull ↔ n = .null := by
  cases n <;> simp [Node.isNull]

namespace Graph

/-- Zero is the null node, and no other node is null. -/
structure InternsNull (g : Graph) : Prop where
  null : g.nodes[0]? = some .null
  eq_zero : ∀ r < g.size, g.kind r = .null → r = 0

theorem InternsNull.get_zero (h : g.InternsNull) : g.get 0 = .null := by
  rw [get, h.null, Option.getD_some]

theorem internsNull_empty : empty.InternsNull where
  null := rfl
  eq_zero _ hr _ := Nat.lt_one_iff.mp hr

/-- Nodes keep their kinds, and those that are new are not null. -/
structure KeepsKinds (g g' : Graph) : Prop where
  size_le : g.size ≤ g'.size
  kind_eq : ∀ r < g.size, g'.kind r = g.kind r
  fresh : ∀ r, g.size ≤ r → r < g'.size → g'.kind r ≠ .null

namespace KeepsKinds

theorem refl (g : Graph) : g.KeepsKinds g where
  size_le := Nat.le_refl _
  kind_eq _ _ := rfl
  fresh _ hle hlt := absurd hlt (Nat.not_lt.mpr hle)

theorem trans (h : g.KeepsKinds g') (h' : g'.KeepsKinds g'') : g.KeepsKinds g'' where
  size_le := h.size_le.trans h'.size_le
  kind_eq r hr := (h'.kind_eq r (hr.trans_le h.size_le)).trans (h.kind_eq r hr)
  fresh r hle hlt := by
    by_cases hr : r < g'.size
    · rw [h'.kind_eq r hr]
      exact h.fresh r hle hr
    · exact h'.fresh r (Nat.le_of_not_lt hr) hlt

/-- Where kinds are kept, zero stays the only null node. -/
theorem internsNull (h : g.KeepsKinds g') (hg : g.InternsNull) : g'.InternsNull := by
  have inUse : 0 < g.size := (Array.getElem?_eq_some_iff.mp hg.null).1
  have zero : g.kind 0 = .null := by
    rw [kind, hg.get_zero]
    rfl
  constructor
  · have inUse' : 0 < g'.nodes.size := inUse.trans_le h.size_le
    have content : g'.kind 0 = .null := (h.kind_eq 0 inUse).trans zero
    rw [kind, Node.kind_eq_null, get, Array.getElem?_eq_getElem inUse', Option.getD_some]
      at content
    rw [Array.getElem?_eq_getElem inUse', content]
  · intro r hr hnull
    by_cases hlt : r < g.size
    · exact hg.eq_zero r hlt ((h.kind_eq r hlt).symm.trans hnull)
    · exact absurd hnull (h.fresh r (Nat.le_of_not_lt hlt) hr)

theorem size_set (g : Graph) (r : Ref) (n : Node Ref) : (g.set r n).size = g.size := by
  simp [Graph.set, size]

/-- A new node is not null. -/
theorem add (g : Graph) (n : Node Ref) : g.KeepsKinds (g.add n).2 where
  size_le := (g.extends_add n).size_le
  kind_eq r hr := by rw [kind, (g.extends_add n).get_eq hr, kind]
  fresh r hle hlt := by
    by_cases hn : n.isNull
    · rw [Graph.add, if_pos hn] at hlt
      exact absurd hlt (Nat.not_lt.mpr hle)
    · obtain ⟨-, sized, content⟩ := g.get_add (Bool.eq_false_iff.mpr hn)
      have last : r = g.size := by omega
      rw [kind, last, content, Ne, Node.kind_eq_null, ← Node.isNull_iff]
      exact hn

/-- A node may take any content of its kind. -/
theorem set (g : Graph) (h : n.kind = g.kind r) : g.KeepsKinds (g.set r n) where
  size_le := (size_set g r n).ge
  kind_eq x hx := by
    rw [kind, get_set]
    split
    · next same => rw [h, same.1]
    · rfl
  fresh x hle hlt := by
    rw [size_set] at hlt
    exact absurd hlt (Nat.not_lt.mpr hle)

theorem replaceWith (g : Graph) (s : σ) (r other : Ref) :
    g.KeepsKinds ((Graph.replaceWith r other).run (g, s)).2.1 := by
  simp only [Graph.replaceWith, Graph.replace, StateT.run]
  by_cases same : r = other
  · rw [if_pos same]
    exact .refl g
  · rw [if_neg same]
    by_cases hk : g.kind r = g.kind other
    · rw [if_pos hk]
      exact set g hk.symm
    · rw [if_neg hk]
      exact .refl g

theorem editSelect (g : Graph) (r : Ref) (edit : Select Ref → Select Ref) :
    g.KeepsKinds (g.editSelect r edit) := by
  unfold Graph.editSelect
  split
  · next s found =>
    apply set
    unfold select? at found
    split at found
    · next content => rw [kind, content]; rfl
    · cases found
  · exact .refl g

/-! ### Copies -/

/-- A reserved node that is filled in the end was added with its content. -/
theorem fill (s : Copying) (hr : (s.reserve r).graph.KeepsKinds g) (hn : n.kind ≠ .null) :
    s.graph.KeepsKinds (g.set s.graph.size n) where
  size_le := by
    have grown := hr.size_le
    rw [Copying.size_reserve] at grown
    rw [size_set]
    exact Nat.le_of_succ_le grown
  kind_eq x hx := by
    have before := hr.kind_eq x ((Copying.extends_reserve s r).size_le.trans_lt' hx)
    have content := (Copying.extends_reserve s r).get_eq hx
    unfold kind at before ⊢
    rw [get_set, if_neg fun same ↦ hx.ne same.1.symm, before, content]
  fresh x hle hlt := by
    have grown := hr.size_le
    rw [Copying.size_reserve] at grown
    rw [size_set] at hlt
    rw [kind, get_set]
    split
    · exact hn
    · next others =>
      apply hr.fresh x _ hlt
      rw [Copying.size_reserve]
      by_contra small
      have same : s.graph.size = x := by omega
      exact others ⟨same, same ▸ hlt⟩

end KeepsKinds

/-- A run of copying keeps the kinds of the graph that it copies into. -/
theorem keepsKinds_copyTo (depth : Nat) (s : Copying) (r : Ref) :
    s.graph.KeepsKinds ((Copying.copyTo depth r).run s).2.graph := by
  induction depth generalizing s r with
  | zero => exact .refl _
  | succ depth ih =>
    cases hc : s.copies.get? r with
    | some copy =>
      rw [Copying.run_copyTo_of_get? hc]
      exact .refl _
    | none =>
      by_cases hnull : (s.graph.get r).isNull
      · rw [Copying.run_copyTo_null hc hnull]
        exact .refl _
      · have below (l : List Ref) (s : Copying) :
            s.graph.KeepsKinds ((l.mapM (Copying.copyTo depth)).run s).2.graph := by
          induction l generalizing s with
          | nil => exact .refl _
          | cons x l ihl =>
            rw [List.mapM_cons, run_andThen, run_andThen]
            exact (ih s x).trans (ihl _)
        obtain ⟨state, -, payload⟩ :=
          (s.graph.get r).visits_mapM (f := Copying.copyTo depth) (s.reserve r)
        rw [Copying.run_copyTo hc hnull, Copying.filling]
        apply KeepsKinds.fill (r := r)
        · rw [state]
          exact below _ _
        · rwa [Node.kind_eq_of_payload payload, Ne, Node.kind_eq_null, ← Node.isNull_iff]

theorem keepsKinds_copy (g : Graph) (copies : Copies) (r : Ref) :
    g.KeepsKinds (g.copy copies r).2.1 := keepsKinds_copyTo (g.size + 1) ⟨g, copies⟩ r

/-! ### Actions -/

namespace Action

/-- An action keeps the kinds of every graph. -/
def KeepsKinds (m : Action σ α) : Prop :=
  ∀ (g : Graph) (s : σ), Graph.KeepsKinds g (m.run (g, s)).2.1

namespace KeepsKinds

theorem pure (a : α) : KeepsKinds (pure a : Action σ α) := fun g _ ↦ Graph.KeepsKinds.refl g

theorem bind {m : Action σ α} {f : α → Action σ β} (hm : m.KeepsKinds)
    (hf : ∀ a, (f a).KeepsKinds) : KeepsKinds (m >>= f) := by
  intro g s
  rw [run_andThen]
  exact (hm g s).trans (hf _ _ _)

theorem mapM {f : β → Action σ α} (hf : ∀ b, (f b).KeepsKinds) (l : List β) :
    KeepsKinds (l.mapM f) := by
  induction l with
  | nil =>
    rw [List.mapM_nil]
    exact pure []
  | cons b l ih =>
    rw [List.mapM_cons]
    exact (hf b).bind fun a ↦ ih.bind fun as ↦ pure (a :: as)

/-- A node whose links are rewritten keeps its kind, and so do those that the action on the
links changes. -/
theorem rewriteChildren {f : Ref → Action σ Ref} (hf : ∀ x, (f x).KeepsKinds) (r : Ref) :
    KeepsKinds (Graph.rewriteChildren r f) := by
  intro g s
  obtain ⟨state, -, payload⟩ := (g.get r).visits_mapM (f := f) (g, s)
  have acted := mapM hf (g.get r).children g s
  rw [← state] at acted
  rcases hm : ((g.get r).mapM f).run (g, s) with ⟨new, g', s'⟩
  rw [hm] at acted payload
  simp only [StateT.run] at hm ⊢
  simp only [Graph.rewriteChildren, StateT.run, hm]
  split
  · exact acted
  · next changed =>
    apply acted.trans
    apply Graph.KeepsKinds.set
    have inUse : r < g.size := by
      by_contra beyond
      have none := children_of_size_le (Nat.le_of_not_lt beyond)
      rw [Graph.children] at none
      rw [none] at changed
      exact changed rfl
    exact (Node.kind_eq_of_payload payload).trans (acted.kind_eq r inUse).symm

theorem substitute {p : Pass σ} (hp : ∀ x, (p x).KeepsKinds) (r : Ref) :
    KeepsKinds (p.substitute r) := (hp r).bind fun _ ↦ pure _

theorem rewriteLinks {p : Pass σ} (hp : ∀ x, (p x).KeepsKinds) (nodes : List Ref) :
    KeepsKinds (p.rewriteLinks nodes) := by
  induction nodes with
  | nil => exact pure 0
  | cons r nodes ih =>
    exact (rewriteChildren (substitute hp) r).bind fun _ ↦ ih.bind fun _ ↦ pure _

/-- A pass keeps kinds if it does so where it looks for the replacement of a node, whether or
not it can replace the root. -/
theorem run {p : Pass σ} (hp : ∀ x, (p x).KeepsKinds) (root : Ref) :
    KeepsKinds (p.run root) := by
  have looked : KeepsKinds (MonadState.get : Action σ (Graph × σ)) :=
    fun g _ ↦ Graph.KeepsKinds.refl g
  apply looked.bind
  intro gs
  apply (rewriteLinks hp _).bind
  intro count
  apply (hp root).bind
  intro found
  cases found with
  | none => exact pure _
  | some other =>
    have replaced : KeepsKinds (Graph.replaceWith (σ := σ) root other) := fun g s ↦
      Graph.KeepsKinds.replaceWith g s root other
    exact replaced.bind fun _ ↦ pure _

theorem optimize {passes : List (Pass σ)} (hp : ∀ p ∈ passes, ∀ x, (p x).KeepsKinds) (root : Ref) :
    KeepsKinds (Graph.optimize passes root) := by
  induction passes with
  | nil => exact pure _
  | cons p passes ih =>
    rw [List.forall_mem_cons] at hp
    apply (run hp.1 root).bind
    intro result
    cases result with
    | error e => exact pure _
    | ok count => exact (ih hp.2).bind fun _ ↦ pure _

end KeepsKinds

end Action

/-! ### Runs -/

/-- Operations on a graph one after the other. The functions that rewrite links and the passes of
an optimizer may themselves operate on the graph, and keep states of their own. -/
inductive Run : Graph → Graph → Prop where
  | refl (g : Graph) : Run g g
  | add {g g' : Graph} (before : Run g g') (n : Node Ref) : Run g (g'.add n).2
  | replaceWith {g g' : Graph} (before : Run g g') (r other : Ref) :
    Run g ((Graph.replaceWith r other).run (g', ())).2.1
  | rewriteChildren {σ : Type} {g g' : Graph} {f : Ref → Action σ Ref} (before : Run g g') (s : σ)
    (r : Ref) (operates : ∀ x h t, Run h ((f x).run (h, t)).2.1) :
    Run g ((Graph.rewriteChildren r f).run (g', s)).2.1
  | copy {g g' : Graph} (before : Run g g') (copies : Copies) (r : Ref) :
    Run g (g'.copy copies r).2.1
  | optimize {σ : Type} {g g' : Graph} {passes : List (Pass σ)} (before : Run g g') (s : σ)
    (root : Ref) (operates : ∀ p ∈ passes, ∀ x h t, Run h ((p x).run (h, t)).2.1) :
    Run g ((Graph.optimize passes root).run (g', s)).2.1
  | editSelect {g g' : Graph} (before : Run g g') (r : Ref) (edit : Select Ref → Select Ref) :
    Run g (g'.editSelect r edit)

/-- Redirecting links by an action on the graph alone is an operation. -/
theorem Run.relinkChildren {f : Ref → StateM Graph Ref} (before : g.Run g') (r : Ref)
    (operates : ∀ x h, Run h ((f x).run h).2) : g.Run (g'.relinkChildren r f).2 := by
  have run := before.rewriteChildren (f := fun c ↦ .lift (f c)) () r fun x h _ ↦ operates x h
  rwa [rewriteChildren_lift] at run

/-- A simplification looks for a replacement by adding a node at most. -/
theorem run_pass (p : Simplification) (g : Graph) (r : Ref) (s : σ) :
    g.Run ((p.pass r).run (g, s)).2.1 := by
  by_cases h : (p.replacement? g r).isSome
  · rw [Simplification.run_pass_of_isSome h]
    simp only [Simplification.substitute, StateT.run]
    split
    · exact .refl g
    · exact (Run.refl g).add _
    · exact .refl g
  · rw [Option.not_isSome_iff_eq_none] at h
    rw [Simplification.run_pass_of_none h]
    exact .refl g

/-- Simplifying is an operation. -/
theorem Run.simplify (before : g.Run g') (root : Ref) (passes : List Simplification) :
    g.Run (g'.simplify root passes).1 := by
  have operates : ∀ p ∈ passes.map Simplification.pass, ∀ x h (t : Unit),
      Run h ((p x).run (h, t)).2.1 := by
    intro p hp
    obtain ⟨q, -, rfl⟩ := List.mem_map.mp hp
    exact fun x h t ↦ run_pass q h x t
  have run := before.optimize () root operates
  rwa [optimize_pass] at run

/-- A run keeps kinds, since each of its operations does. -/
theorem Run.keepsKinds (h : g.Run g') : g.KeepsKinds g' := by
  induction h with
  | refl g => exact .refl g
  | add before n ih => exact ih.trans (.add _ n)
  | replaceWith before r other ih => exact ih.trans (.replaceWith _ () r other)
  | rewriteChildren before s r operates ih ihf =>
    exact ih.trans (Action.KeepsKinds.rewriteChildren ihf r _ s)
  | copy before copies r ih => exact ih.trans (keepsKinds_copy _ copies r)
  | optimize before s root operates ih ihp =>
    exact ih.trans (Action.KeepsKinds.optimize ihp root _ s)
  | editSelect before r edit ih => exact ih.trans (.editSelect _ r edit)

/-- Taking over the content of a node of another kind fails and changes nothing. -/
theorem run_replaceWith_of_ne (h : g.kind r ≠ g.kind other) :
    (replaceWith r other).run (g, s) = (.error (.kindMismatch (g.kind r) (g.kind other)), g, s) := by
  have different : r ≠ other := fun same ↦ h (same ▸ rfl)
  simp only [replaceWith, replace, StateT.run, if_neg different, if_neg h]

/-- Taking over the content of a node of the same kind changes nothing else. -/
theorem run_replaceWith_of_eq (h : g.kind r = g.kind other) :
    ∃ g', (replaceWith r other).run (g, s) = (.ok (), g', s) ∧ g'.size = g.size ∧
      g'.get r = g.get other ∧ ∀ x ≠ r, g'.get x = g.get x := by
  simp only [replaceWith, replace, StateT.run, if_pos h]
  by_cases same : r = other
  · rw [if_pos same]
    exact ⟨g, rfl, rfl, by rw [same], fun _ _ ↦ rfl⟩
  · rw [if_neg same]
    refine ⟨_, rfl, KeepsKinds.size_set .., ?_, fun x hx ↦ ?_⟩
    · rw [get_set]
      split
      · rfl
      · next beyond =>
        have empty : g.get r = .null := by
          rw [get, Array.getElem?_eq_none (Nat.le_of_not_lt fun inUse ↦ beyond ⟨rfl, inUse⟩)]
          rfl
        rw [kind, empty] at h
        rw [empty, Node.kind_eq_null.mp h.symm]
    · rw [get_set, if_neg fun e ↦ hx e.1.symm]

/-- Through all operations on a graph, from any point of a run to any later one, every node keeps
the kind that it had, a node that is made has the kind of its content, and zero stays the only
null node. Taking over the content of a node of another kind fails and changes nothing, and
taking over that of a node of the same kind changes nothing else. -/
theorem Run.kinds (hg : g.InternsNull) (before : g.Run g₁) (later : g₁.Run g₂) (s : σ) :
    (∀ r < g₁.size, r < g₂.size ∧ g₂.kind r = g₁.kind r) ∧
    (∀ r < g₂.size, g₂.kind r = .null ↔ r = 0) ∧
    (∀ n, (g₂.add n).2.kind (g₂.add n).1 = n.kind) ∧
    ∀ r other,
      (g₂.kind r ≠ g₂.kind other → (Graph.replaceWith r other).run (g₂, s) =
        (.error (.kindMismatch (g₂.kind r) (g₂.kind other)), g₂, s)) ∧
      (g₂.kind r = g₂.kind other → ∃ g₃, (Graph.replaceWith r other).run (g₂, s) = (.ok (), g₃, s) ∧
        g₃.size = g₂.size ∧ g₃.get r = g₂.get other ∧ ∀ x ≠ r, g₃.get x = g₂.get x) := by
  have kept := later.keepsKinds
  have interned := (before.keepsKinds.trans kept).internsNull hg
  refine ⟨fun r hr ↦ ⟨hr.trans_le kept.size_le, kept.kind_eq r hr⟩, ?_, ?_, fun r other ↦
    ⟨run_replaceWith_of_ne, run_replaceWith_of_eq⟩⟩
  · intro r hr
    refine ⟨interned.eq_zero r hr, ?_⟩
    rintro rfl
    rw [kind, interned.get_zero]
    rfl
  · intro n
    by_cases hn : n.isNull
    · rw [Graph.add, if_pos hn, kind, interned.get_zero, Node.isNull_iff.mp hn]
    · obtain ⟨place, -, content⟩ := g₂.get_add (Bool.eq_false_iff.mpr hn)
      rw [kind, place, content]

/-- Two rows that hold each other, and a column. -/
def loop : Graph := ⟨#[.null, .row [2], .row [1], .column none "x"]⟩

/-- The copy of a row in a loop is a row, and no row takes over the content of a column. -/
theorem Run.kinds_of_loop :
    ∃ g, loop.Run g ∧ g.kind 4 = .row ∧ g.kind 1 = loop.kind 1 ∧ (g.kind 4 = .null ↔ 4 = 0) ∧
      (Graph.replaceWith 4 3).run (g, ()) = (.error (.kindMismatch .row .column), g, ()) := by
  have run := (Run.refl loop).copy {} 1
  obtain ⟨kept, null, -, replacing⟩ :=
    Run.kinds (g := loop) ⟨rfl, by decide⟩ (.refl loop) run ()
  exact ⟨_, run, rfl, (kept 1 (by decide)).2, null 4 (by decide), (replacing 4 3).1 (by decide)⟩

end Graph

end SqlWright
