import SqlWright.Proofs.Copying.Images

/-!
# Copies are isomorphic

Calls that share their copies build up one relation between nodes and copies. It is one-to-one,
it leads from the links of a node to the links of its copy in their order, and no call changes a
node that was there before (`Graph.IsCopied`). What is seen from a copy is so what is seen from
its source, with every node but the null node a new one.
-/

namespace SqlWright

variable {g g₁ g₂ : Graph} {c c₁ c₂ : Copies} {r copy x : Ref}

/-- The copies of a graph have the content of their sources and the images of their links, and no
two nodes share a copy. -/
structure Copies.IsIsomorphism (c : Copies) (g : Graph) : Prop where
  injective : ∀ a a' b, c.get? a = some b → c.get? a' = some b → a = a'
  null : c.get? 0 = none
  inUse : ∀ a b, c.get? a = some b → a < g.size ∧ b < g.size
  content : ∀ a b, c.get? a = some b → g.get b = (g.get a).map c.image
  covers : ∀ a b, c.get? a = some b → ∀ x ∈ g.children a, c.Covers x

namespace Graph

/-- Graph and copies that some calls on nodes in use lead to, each given the copies of those
before. -/
inductive CopyRun (g : Graph) : Graph → Copies → Prop where
  | start : CopyRun g g {}
  | call {g₁ : Graph} {c₁ : Copies} {r : Ref} (before : CopyRun g g₁ c₁) (inUse : r < g₁.size) :
    CopyRun g (g₁.copy c₁ r).2.1 (g₁.copy c₁ r).2.2

/-- What a call on a node comes to: it ends at whatever depth is enough for the nodes of the
graph, keeps the graph and the copies made before, and gives the image of the node. All that is
reached from the node has then an image, which is a new node or one that was a copy before. -/
structure IsCopied (g₁ : Graph) (c₁ : Copies) (r copy : Ref) (g₂ : Graph) (c₂ : Copies) :
    Prop where
  ends : ∀ depth, g₁.size < depth → (Copying.copyTo depth r).run ⟨g₁, c₁⟩ = (copy, ⟨g₂, c₂⟩)
  kept : g₁.Extends g₂
  keeps : c₁.Keeps c₂
  fresh : ∀ a b, c₂.get? a = some b → c₁.get? a = none → g₁.size ≤ b
  image : copy = c₂.image r
  covers : ∀ x, g₁.Reaches r x → c₂.Covers x
  isomorphism : c₂.IsIsomorphism g₂

theorem isIsomorphism_empty (g : Graph) : ({} : Copies).IsIsomorphism g where
  injective _ _ _ h := nomatch h
  null := rfl
  inUse _ _ h := nomatch h
  content _ _ h := nomatch h
  covers _ _ h := nomatch h


/-- What is reached from a node of a set that is closed under links is in the set. -/
theorem Reaches.mem_of_closed (h : g.Reaches r x) (part : Set Ref)
    (closed : ∀ r ∈ part, ∀ c ∈ g.children r, c ∈ part) (hr : r ∈ part) : x ∈ part := by
  induction h with
  | refl => exact hr
  | tail _ hx ih => exact closed _ ih _ hx

theorem IsWellFormed.inUse_of_reaches (hg : g.IsWellFormed) (hr : r < g.size)
    (h : g.Reaches r x) : x < g.size :=
  h.mem_of_closed {x | x < g.size} hg.inUse hr

/-- Where the nodes that are reached stay the same, the same nodes are reached. -/
theorem reaches_iff_of_get_eq (h : ∀ x, g.Reaches r x → g₁.get x = g.get x) :
    g₁.Reaches r x ↔ g.Reaches r x := by
  have links {a b : Ref} (ha : g.Reaches r a) : g₁.Links a b ↔ g.Links a b := by
    rw [Links, Links, children, children, h a ha]
  constructor
  · intro hx
    induction hx with
    | refl => exact .refl
    | tail _ hx ih => exact ih.tail ((links ih).mp hx)
  · intro hx
    induction hx with
    | refl => exact .refl
    | tail hy hx ih => exact ih.tail ((links hy).mpr hx)

theorem Extends.reaches_iff (h : g.Extends g₁) (hg : g.IsWellFormed) (hr : r < g.size) :
    g₁.Reaches r x ↔ g.Reaches r x :=
  reaches_iff_of_get_eq fun _ hx ↦ h.get_eq (hg.inUse_of_reaches hr hx)

theorem sound_of_isIsomorphism (h : c.IsIsomorphism g) : Copying.Sound g ⟨g, c⟩ where
  kept := .refl g
  injective := h.injective
  null := h.null
  inUse := h.inUse

section Call

variable {s : Copying} {l : List Ref}

/-- Once a run is over, all copies are filled. -/
theorem isIsomorphism_of_copied (hc : c₁.IsIsomorphism g₁)
    (h : Copying.Copied g₁ l [copy] ⟨g₁, c₁⟩ s) : s.copies.IsIsomorphism s.graph := by
  have source {a b : Ref} (hab : s.copies.get? a = some b) : s.graph.get a = g₁.get a :=
    h.sound.kept.get_eq (h.sound.inUse a b hab).1
  have before {a b b' : Ref} (hab : s.copies.get? a = some b) (hm : c₁.get? a = some b') :
      c₁.get? a = some b := by
    rw [hm, ← h.fills.keeps a b' hm, hab]
  refine ⟨h.sound.injective, h.sound.null, ?_, ?_, ?_⟩
  · intro a b hab
    have inUse := h.sound.inUse a b hab
    exact ⟨inUse.1.trans_le h.sound.kept.size_le, inUse.2⟩
  · intro a b hab
    rw [source hab]
    cases hm : c₁.get? a with
    | none => exact h.fills.filled a b hab hm
    | some b' =>
      have was := before hab hm
      rw [h.fills.kept.get_eq (hc.inUse a b was).2, hc.content a b was]
      apply Node.map_congr
      intro x hx
      exact ((hc.covers a b was x hx).image_eq h.fills.keeps h.sound.null).symm
  · intro a b hab x hx
    rw [children, source hab] at hx
    cases hm : c₁.get? a with
    | none => exact h.fills.covers a b hab hm x hx
    | some b' => exact (hc.covers a b (before hab hm) x hx).mono h.fills.keeps

private theorem isNull_map {α β : Type} (f : α → β) (n : Node α) :
    (n.map f).isNull = n.isNull := by
  cases n <;> rfl

/-- Each node that a run adds is the copy of one, so that no new node is null. -/
theorem isWellFormed_of_copied (hg : g₁.IsWellFormed)
    (h : Copying.Copied g₁ l [copy] ⟨g₁, c₁⟩ s) (hs : s.copies.IsIsomorphism s.graph) :
    s.graph.IsWellFormed where
  null := by
    have inUse : 0 < s.graph.size := hg.size_pos.trans_le h.fills.kept.size_le
    have null := h.fills.kept.get_eq hg.size_pos
    rw [hg.get_zero, get, Array.getElem?_eq_getElem inUse, Option.getD_some] at null
    rw [Array.getElem?_eq_getElem inUse, null]
  eq_zero r hr hnull := by
    by_cases hold : r < g₁.size
    · rw [h.fills.kept.get_eq hold] at hnull
      exact hg.eq_zero r hold hnull
    · obtain ⟨a, ha⟩ := h.fills.onto r (Nat.le_of_not_lt hold) hr
      have source := (h.sound.inUse a r ha).1
      rw [hs.content a r ha, isNull_map, h.fills.kept.get_eq source] at hnull
      rw [hg.eq_zero a source hnull, hs.null] at ha
      cases ha
  inUse r hr x hx := by
    by_cases hold : r < g₁.size
    · rw [children, h.fills.kept.get_eq hold] at hx
      exact (hg.inUse r hold x hx).trans_le h.fills.kept.size_le
    · obtain ⟨a, ha⟩ := h.fills.onto r (Nat.le_of_not_lt hold) hr
      rw [children, hs.content a r ha, Node.children_map] at hx
      obtain ⟨y, hy, rfl⟩ := List.mem_map.mp hx
      cases (hs.covers a r ha y hy).image_cases hs.null with
      | inl h0 =>
        rw [h0]
        exact hg.size_pos.trans_le h.fills.kept.size_le
      | inr hb => exact (hs.inUse y _ hb).2

end Call

/-- A call ends, and what it adds to the copies made before is an isomorphism with them. -/
theorem isCopied_copy (hg : g₁.IsWellFormed) (hc : c₁.IsIsomorphism g₁) (hr : r < g₁.size) :
    g₁.IsCopied c₁ r (g₁.copy c₁ r).1 (g₁.copy c₁ r).2.1 (g₁.copy c₁ r).2.2 ∧
      (g₁.copy c₁ r).2.1.IsWellFormed := by
  have sound := sound_of_isIsomorphism hc
  have enough : Copying.missing g₁ ⟨g₁, c₁⟩ < g₁.size + 1 := by
    apply Nat.lt_succ_of_le
    calc
      Copying.missing g₁ ⟨g₁, c₁⟩ ≤ (Finset.range g₁.size).card := Finset.card_filter_le ..
      _ = g₁.size := Finset.card_range _
  have copied := Copying.copied_copyTo hg sound hr enough
  have isomorphism := isIsomorphism_of_copied hc copied
  have wellFormed := isWellFormed_of_copied hg copied isomorphism
  refine ⟨⟨?_, copied.fills.kept, copied.fills.keeps, ?_, ?_, ?_, isomorphism⟩, wellFormed⟩
  · intro depth hd
    exact Copying.run_copyTo_eq hg sound hr
      ((Nat.le_of_lt_succ enough).trans_lt hd) enough
  · intro a b hab hn
    exact copied.fills.fresh a b hab hn
  · exact List.singleton_inj.mp copied.images
  · intro x hx
    refine (hx.mem_of_closed {a | a < g₁.size ∧ (g₁.copy c₁ r).2.2.Covers a} ?_
      ⟨hr, copied.covers r (List.mem_singleton_self r)⟩).2
    intro a ha y hy
    refine ⟨hg.inUse a ha.1 y hy, ?_⟩
    cases ha.2 with
    | inl h0 =>
      rw [h0, children, hg.get_zero] at hy
      cases hy
    | inr hb =>
      obtain ⟨b, hb⟩ := hb
      apply isomorphism.covers a b hb
      rw [children, copied.fills.kept.get_eq ha.1]
      exact hy

/-- Whatever was copied before, the next call finds a graph and copies that it can go on with. -/
theorem CopyRun.invariant (hg : g.IsWellFormed) (h : g.CopyRun g₁ c₁) :
    g₁.IsWellFormed ∧ c₁.IsIsomorphism g₁ ∧ g.Extends g₁ := by
  induction h with
  | start => exact ⟨hg, isIsomorphism_empty g, .refl g⟩
  | call before inUse ih =>
    obtain ⟨wellFormed, isomorphism, kept⟩ := ih
    obtain ⟨copied, wellFormed'⟩ := isCopied_copy wellFormed isomorphism inUse
    exact ⟨wellFormed', copied.isomorphism, kept.trans copied.kept⟩

/-- A copy made with no others before it shares the null node alone with its source. -/
theorem IsCopied.eq_zero_of_shared (h : g₁.IsCopied {} r copy g₂ c₂) (hg : g₁.IsWellFormed)
    (hr : r < g₁.size) (hcopy : g₂.Reaches copy x) (hsource : g₂.Reaches r x) : x = 0 := by
  have old : x < g₁.size := hg.inUse_of_reaches hr ((h.kept.reaches_iff hg hr).mp hsource)
  have new : x = 0 ∨ ∃ a, c₂.get? a = some x := by
    have image {a : Ref} (ha : c₂.Covers a) : c₂.image a = 0 ∨ ∃ b, c₂.get? b = some (c₂.image a) :=
      (ha.image_cases h.isomorphism.null).imp_right fun hb ↦ ⟨a, hb⟩
    refine hcopy.mem_of_closed {x | x = 0 ∨ ∃ a, c₂.get? a = some x} ?_ ?_
    · intro b hb y hy
      cases hb with
      | inl h0 =>
        rw [h0, children, h.kept.get_eq hg.size_pos, hg.get_zero] at hy
        cases hy
      | inr ha =>
        obtain ⟨a, ha⟩ := ha
        rw [children, h.isomorphism.content a b ha, Node.children_map] at hy
        obtain ⟨z, hz, rfl⟩ := List.mem_map.mp hy
        exact image (h.isomorphism.covers a b ha z hz)
    · rw [h.image]
      exact image (h.covers r .refl)
  cases new with
  | inl h0 => exact h0
  | inr ha =>
    obtain ⟨a, ha⟩ := ha
    exact absurd (h.fresh a x ha rfl) (Nat.not_le_of_lt old)

end Graph

end SqlWright
