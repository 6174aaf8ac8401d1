import SqlWright.Dom.Graph.Simplify
import SqlWright.Proofs.Copying.Isomorphism

/-!
# Copies are independent

A set of nodes that holds its own links and every node still to be made can be edited by itself:
adding, replacing, redirecting links and simplifying, with operands from the set, change no node
outside of it (`Graph.Edited.spares`). What is reached from a copy is such a set, and it shares
only the null node with the source, so that nothing seen from the source changes. The operands
matter: a copy that takes over the content of a node of its source has its links to share, and so
has one that takes over a new node around a node of its source.
-/

namespace SqlWright

variable {own : Set Ref} {g g' g'' : Graph} {n : Node Ref} {r x : Ref}

namespace Graph

/-- A set holds the null node, the links of its nodes, and all nodes that are not made yet. -/
structure Owns (g : Graph) (own : Set Ref) : Prop where
  zero : 0 ∈ own
  nonempty : 0 < g.size
  null : g.get 0 = .null
  links : ∀ r ∈ own, ∀ x ∈ g.children r, x ∈ own
  later : ∀ r, g.size ≤ r → r ∈ own

/-- Changes of a graph, all operands of which are in a set. The action on the links of a node
may itself change the graph in such ways. -/
inductive Edited (own : Set Ref) : Graph → Graph → Prop where
  | refl (g : Graph) : Edited own g g
  | add {g g' : Graph} {n : Node Ref} (before : Edited own g g')
    (links : ∀ x ∈ n.children, x ∈ own) : Edited own g (g'.add n).2
  | replace {g g' g'' : Graph} {r other : Ref} (before : Edited own g g') (target : r ∈ own)
    (operand : other ∈ own) (replaced : g'.replace r other = .ok g'') : Edited own g g''
  | relinkChildren {g g' : Graph} {r : Ref} {f : Ref → StateM Graph Ref} (before : Edited own g g')
    (target : r ∈ own) (results : ∀ x ∈ own, ∀ h, h.Owns own → ((f x).run h).1 ∈ own)
    (changes : ∀ x ∈ own, ∀ h, h.Owns own → Edited own h ((f x).run h).2) :
    Edited own g (g'.relinkChildren r f).2
  | simplify {g g' : Graph} {root : Ref} (before : Edited own g g') (target : root ∈ own)
    (passes : List Simplification) : Edited own g (g'.simplify root passes).1

/-- A change leaves what is not in a set as it was, and the set holds its links afterwards. -/
structure Spares (own : Set Ref) (g g' : Graph) : Prop where
  owns : g'.Owns own
  get_eq : ∀ r, r ∉ own → g'.get r = g.get r

theorem Spares.refl (hg : g.Owns own) : Spares own g g := ⟨hg, fun _ _ ↦ rfl⟩

theorem Spares.trans (h : Spares own g g') (h' : Spares own g' g'') : Spares own g g'' where
  owns := h'.owns
  get_eq r hr := (h'.get_eq r hr).trans (h.get_eq r hr)

/-- A reference beyond those in use has the links of the node that was added, if any. -/
theorem mem_children_add (hr : g.size ≤ r) (hx : x ∈ (g.add n).2.children r) :
    x ∈ n.children := by
  unfold Graph.add at hx
  split at hx
  · rw [children_of_size_le hr] at hx
    cases hx
  · rw [children, get, Array.getElem?_push] at hx
    split at hx
    · exact hx
    · rw [Array.getElem?_eq_none hr] at hx
      cases hx

namespace Owns

variable {f : Ref → StateM Graph Ref}

theorem add (hg : g.Owns own) (hn : ∀ x ∈ n.children, x ∈ own) : Spares own g (g.add n).2 := by
  have kept := g.extends_add n
  refine ⟨⟨hg.zero, hg.nonempty.trans_le kept.size_le, ?_, ?_, ?_⟩, ?_⟩
  · rw [kept.get_eq hg.nonempty, hg.null]
  · intro r hr x hx
    by_cases hlt : r < g.size
    · rw [children, kept.get_eq hlt] at hx
      exact hg.links r hr x hx
    · exact hn x (mem_children_add (Nat.le_of_not_lt hlt) hx)
  · intro r hr
    exact hg.later r (kept.size_le.trans hr)
  · intro r hr
    apply kept.get_eq
    by_contra hlt
    exact hr (hg.later r (Nat.le_of_not_lt hlt))

/-- A node of the set may take any content with links in the set; the null node keeps its own. -/
theorem set (hg : g.Owns own) (hr : r ∈ own) (hn : ∀ x ∈ n.children, x ∈ own)
    (h0 : r = 0 → n = .null) : Spares own g (g.set r n) := by
  have sized : (g.set r n).size = g.size := by simp [Graph.set, size]
  refine ⟨⟨hg.zero, sized ▸ hg.nonempty, ?_, ?_, ?_⟩, ?_⟩
  · rw [get_set]
    split
    · next h => exact h0 h.1
    · exact hg.null
  · intro y hy x hx
    rw [children, get_set] at hx
    split at hx
    · exact hn x hx
    · exact hg.links y hy x hx
  · intro y hy
    exact hg.later y (sized ▸ hy)
  · intro y hy
    rw [get_set, if_neg]
    intro h
    exact hy (h.1 ▸ hr)

theorem replace {other : Ref} (hg : g.Owns own) (hr : r ∈ own) (ho : other ∈ own)
    (h : g.replace r other = .ok g') : Spares own g g' := by
  unfold Graph.replace at h
  split at h
  · cases h
    exact .refl hg
  · split at h
    · next hk =>
      cases h
      apply hg.set hr (hg.links other ho)
      rintro rfl
      rw [kind, hg.null] at hk
      unfold kind at hk
      cases hc : g.get other with
      | null => rfl
      | _ =>
        rw [hc] at hk
        cases hk
    · cases h

/-- Acting on nodes of the set one after the other. -/
theorem mapM (hg : g.Owns own) {l : List Ref} (hl : ∀ x ∈ l, x ∈ own)
    (hf : ∀ x ∈ own, ∀ g, g.Owns own → ((f x).run g).1 ∈ own ∧ Spares own g ((f x).run g).2) :
    (∀ x ∈ ((l.mapM f).run g).1, x ∈ own) ∧ Spares own g ((l.mapM f).run g).2 := by
  induction l generalizing g with
  | nil => exact ⟨List.forall_mem_nil _, .refl hg⟩
  | cons x l ih =>
    rw [List.forall_mem_cons] at hl
    obtain ⟨result, first⟩ := hf x hl.1 g hg
    obtain ⟨results, others⟩ := ih first.owns hl.2
    rw [List.mapM_cons, run_andThen]
    exact ⟨List.forall_mem_cons.mpr ⟨result, results⟩, first.trans others⟩

/-- Redirecting the links of a node of the set to nodes of the set. -/
theorem relinkChildren (hg : g.Owns own) (hr : r ∈ own)
    (hf : ∀ x ∈ own, ∀ g, g.Owns own → ((f x).run g).1 ∈ own ∧ Spares own g ((f x).run g).2) :
    Spares own g (g.relinkChildren r f).2 := by
  obtain ⟨state, links, -⟩ := (g.get r).visits_mapM (f := f) g
  obtain ⟨results, acted⟩ := hg.mapM (hg.links r hr) hf
  rw [Graph.children] at results acted
  rw [← state] at acted
  rw [← links] at results
  rcases hm : ((g.get r).mapM f).run g with ⟨new, g₁⟩
  rw [hm] at results acted
  simp only [Graph.relinkChildren, hm]
  split
  · exact acted
  · next changed =>
    apply acted.trans
    apply acted.owns.set hr results
    rintro rfl
    rw [hg.null] at changed
    exact absurd rfl changed

end Owns

end Graph

namespace Simplification

variable {p : Simplification}

/-- The substitute of a node of the set is in the set. -/
theorem owns_substitute (p : Simplification) (hg : g.Owns own) (hr : r ∈ own) :
    ((p.substitute r).run g).1 ∈ own ∧ Graph.Spares own g ((p.substitute r).run g).2 := by
  simp only [substitute, StateT.run]
  split
  · next other h => exact ⟨hg.links r hr other (mem_children_of_replacement? h), .refl hg⟩
  · exact ⟨hg.later _ (Nat.le_refl _), hg.add (List.forall_mem_nil _)⟩
  · exact ⟨hr, .refl hg⟩

theorem spares_substituteLinks (hg : g.Owns own) {nodes : List Ref} (hn : ∀ r ∈ nodes, r ∈ own) :
    Graph.Spares own g (p.substituteLinks g nodes).2 := by
  apply substituteLinks_keeps (I := Graph.Spares own g) (.refl hg)
  intro r hr g' hg'
  exact hg'.trans (hg'.owns.relinkChildren (hn r hr) fun x hx h hh ↦ p.owns_substitute hh hx)

theorem spares_run (hg : g.Owns own) (hr : r ∈ own) : Graph.Spares own g (p.run g r).1 := by
  have below := spares_substituteLinks (p := p) hg (Graph.mem_of_mem_postOrder hg.links hr)
  rcases hl : p.substituteLinks g (g.postOrder r) with ⟨count, g₁⟩
  rw [hl] at below
  simp only [run, hl]
  split
  · obtain ⟨result, substituted⟩ := p.owns_substitute below.owns hr
    rcases hs : p.substitute r g₁ with ⟨other, g₂⟩
    rw [StateT.run, hs] at result substituted
    have spared := below.trans substituted
    dsimp only
    cases h : g₂.replace r other with
    | ok g₃ => exact spared.trans (substituted.owns.replace hr result h)
    | error e => exact spared
  · exact below

end Simplification

namespace Graph

theorem spares_simplify (hg : g.Owns own) (hr : r ∈ own) (passes : List Simplification) :
    Spares own g (g.simplify r passes).1 := by
  induction passes generalizing g with
  | nil => exact .refl hg
  | cons p passes ih =>
    have first := Simplification.spares_run (p := p) hg hr
    unfold simplify
    split
    · next h =>
      rw [h] at first
      exact first
    · next h =>
      rw [h] at first
      exact first.trans (ih first.owns)

/-- Changes with operands from a set that holds its links change nothing outside of it. -/
theorem Edited.spares (h : Edited own g g') (hg : g.Owns own) : Spares own g g' := by
  induction h with
  | refl g => exact .refl hg
  | add before links ih =>
    have spared := ih hg
    exact spared.trans (spared.owns.add links)
  | replace before target operand replaced ih =>
    have spared := ih hg
    exact spared.trans (spared.owns.replace target operand replaced)
  | relinkChildren before target results changes ih ihf =>
    have spared := ih hg
    exact spared.trans (spared.owns.relinkChildren target fun x hx h hh ↦
      ⟨results x hx h hh, ihf x hx h hh hh⟩)
  | simplify before target passes ih =>
    have spared := ih hg
    exact spared.trans (spares_simplify spared.owns target passes)

/-- The null node, what is reached from a node, and what is not made yet. -/
def ownedBy (g : Graph) (r : Ref) : Set Ref := {x | x = 0 ∨ g.Reaches r x ∨ g.size ≤ x}

theorem IsWellFormed.owns_ownedBy (hg : g.IsWellFormed) (r : Ref) : g.Owns (g.ownedBy r) where
  zero := .inl rfl
  nonempty := hg.size_pos
  null := hg.get_zero
  links y hy x hx := by
    rcases hy with rfl | hy | hy
    · rw [children, hg.get_zero] at hx
      cases hx
    · exact .inr (.inl (hy.tail hx))
    · rw [children_of_size_le hy] at hx
      cases hx
  later _ hr := .inr (.inr hr)

/-- Changes of a copy made with no others before it change nothing that is seen from its
source. -/
theorem IsCopied.get_eq_of_edited {g₁ g₂ g₃ : Graph} {c₂ : Copies} {copy : Ref}
    (h : g₁.IsCopied {} r copy g₂ c₂) (hg : g₁.IsWellFormed) (hg₂ : g₂.IsWellFormed)
    (hr : r < g₁.size) (edited : Edited (g₂.ownedBy copy) g₂ g₃) (hx : g₁.Reaches r x) :
    g₃.get x = g₁.get x := by
  have spared := edited.spares (hg₂.owns_ownedBy copy)
  have inUse := hg.inUse_of_reaches hr hx
  by_cases h0 : x = 0
  · rw [h0, spared.owns.null, hg.get_zero]
  · rw [spared.get_eq, h.kept.get_eq inUse]
    rintro (hz | shared | later)
    · exact h0 hz
    · exact h0 (h.eq_zero_of_shared hg hr shared ((h.kept.reaches_iff hg hr).mpr hx))
    · exact absurd (inUse.trans_le h.kept.size_le) (Nat.not_lt.mpr later)

/-- Each of several calls that share their copies ends, keeps the nodes of the graph and the
copies made before, and makes of them, one-to-one, an isomorphic image of all that is reached
from its node, where the null node is its own image and all else a new node. A copy made by the
first call shares the null node alone with its source. No changes of the copy change what is seen
from the source, if their operands are null, reached from the copy or made later, and a node made
later links only to null, to nodes reached from the copy, or to nodes made later in this way. -/
theorem copy_isomorphic {g₁ g₂ : Graph} {c₁ c₂ : Copies} {copy : Ref} (hg : g.IsWellFormed)
    (before : g.CopyRun g₁ c₁) (hr : r < g₁.size) (call : g₁.copy c₁ r = (copy, g₂, c₂)) :
    g.Extends g₂ ∧ g₁.IsCopied c₁ r copy g₂ c₂ ∧
      (c₁ = {} →
        (∀ x, g₂.Reaches copy x → g₂.Reaches r x → x = 0) ∧
        ∀ g₃, Edited (g₂.ownedBy copy) g₂ g₃ → ∀ x,
          (g₃.Reaches r x ↔ g₁.Reaches r x) ∧ (g₁.Reaches r x → g₃.get x = g₁.get x)) := by
  obtain ⟨wellFormed, isomorphism, kept⟩ := before.invariant hg
  obtain ⟨copied, wellFormed₂⟩ := isCopied_copy wellFormed isomorphism hr
  rw [call] at copied wellFormed₂
  refine ⟨kept.trans copied.kept, copied, ?_⟩
  rintro rfl
  constructor
  · intro x hcopy hsource
    exact copied.eq_zero_of_shared wellFormed hr hcopy hsource
  · intro g₃ edited x
    have same (x : Ref) (hx : g₁.Reaches r x) : g₃.get x = g₁.get x :=
      copied.get_eq_of_edited wellFormed wellFormed₂ hr edited hx
    exact ⟨reaches_iff_of_get_eq same, same x⟩

/-- Two rows that hold each other and share a column. -/
def cycle : Graph := ⟨#[.null, .row [2, 3], .row [1, 3], .column none "x"]⟩

/-- The copy of the cycle is a cycle, and can take over the other row of it. -/
theorem copy_isomorphic_of_cycle :
    ∃ g₂ c₂ g₃, cycle.copy {} 1 = (4, g₂, c₂) ∧ cycle.IsCopied {} 1 4 g₂ c₂ ∧
      g₂.children 4 = [5, 6] ∧ g₂.children 5 = [4, 6] ∧
      g₂.replace 4 5 = .ok g₃ ∧ g₃.children 4 = [4, 6] ∧
      ∀ x, cycle.Reaches 1 x → g₃.get x = cycle.get x := by
  have wellFormed : cycle.IsWellFormed := ⟨rfl, by decide, by decide⟩
  obtain ⟨-, copied, independent⟩ :=
    copy_isomorphic (g := cycle) (r := 1) wellFormed .start (by decide) rfl
  have link : (cycle.copy {} 1).2.1.Links 4 5 := List.mem_cons_self
  have target : 4 ∈ (cycle.copy {} 1).2.1.ownedBy 4 := Or.inr (.inl .refl)
  have operand : 5 ∈ (cycle.copy {} 1).2.1.ownedBy 4 := Or.inr (.inl (.single link))
  refine ⟨_, _, _, rfl, copied, rfl, rfl, rfl, rfl, ?_⟩
  intro x
  exact ((independent rfl).2 _ ((Edited.refl _).replace target operand rfl) x).2

/-- A row in a row that holds a conjunction with TRUE. -/
def nested : Graph :=
  ⟨#[.null, .column none "x", .literal (.boolean true), .binary .and 2 1, .row [3], .row [4]]⟩

/-- A copy that takes over the content of its source shares the inner row with it, so that
simplifying the copy changes what is seen from the source. -/
theorem copy_shares_of_replaced :
    nested.IsWellFormed ∧ nested.Reaches 5 4 ∧ ∃ g₃,
      (nested.copy {} 5).2.1.replace (nested.copy {} 5).1 5 = .ok g₃ ∧
        (g₃.simplify (nested.copy {} 5).1 Simplification.standard).1.children 4 = [1] ∧
        nested.children 4 = [3] :=
  ⟨⟨rfl, by decide, by decide⟩, .single List.mem_cons_self, _, rfl, rfl, rfl⟩

end Graph

end SqlWright
