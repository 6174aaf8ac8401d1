import SqlWright.Dom.Graph.Copy
import SqlWright.Proofs.Copying.Links
import SqlWright.Proofs.Simplification.Ranks

/-!
# Images under copying

A run of copying reserves a node before it copies what is below, so on the way some copies are
empty still. `Copying.Sound` is what holds all the time, `Copying.Fills` what a run adds: the
copies that it makes are filled when it ends, and with the images of the links of their sources.
A run that has depth left for every node that was not copied yet (`Copying.missing`) never comes
to the end of it, cycles or not.
-/

namespace SqlWright

variable {g : Graph} {c c' : Copies} {r : Ref}

namespace Graph

/-- Zero is the null node and no other node is null, and links lead to nodes in use. -/
structure IsWellFormed (g : Graph) : Prop where
  null : g.nodes[0]? = some .null
  eq_zero : ∀ r < g.size, (g.get r).isNull → r = 0
  inUse : ∀ r < g.size, ∀ x ∈ g.children r, x < g.size

theorem isWellFormed_empty : empty.IsWellFormed where
  null := rfl
  eq_zero r hr _ := Nat.lt_one_iff.mp hr
  inUse r hr := by
    obtain rfl := Nat.lt_one_iff.mp hr
    exact List.forall_mem_nil _

theorem IsWellFormed.get_zero (h : g.IsWellFormed) : g.get 0 = .null := by
  rw [get, h.null, Option.getD_some]

theorem IsWellFormed.size_pos (h : g.IsWellFormed) : 0 < g.size :=
  (Array.getElem?_eq_some_iff.mp h.null).1

end Graph

namespace Copies

/-- What a link to a node becomes in a copy: a link to the copy of the node, and the null node
stays. -/
def image (c : Copies) (r : Ref) : Ref := (c.get? r).getD r

/-- The image of a node is settled: it is the null node, or it was copied. -/
def Covers (c : Copies) (r : Ref) : Prop := r = 0 ∨ ∃ b, c.get? r = some b

/-- Copies made before are kept. -/
def Keeps (c c' : Copies) : Prop := ∀ a b, c.get? a = some b → c'.get? a = some b

theorem Covers.mono (h : c.Covers r) (hc : c.Keeps c') : c'.Covers r := by
  cases h with
  | inl h => exact .inl h
  | inr h =>
    obtain ⟨b, hb⟩ := h
    exact .inr ⟨b, hc r b hb⟩

/-- An image that is settled stays the same. -/
theorem Covers.image_eq (h : c.Covers r) (hc : c.Keeps c') (h0 : c'.get? 0 = none) :
    c'.image r = c.image r := by
  cases h with
  | inl h =>
    have before : c.get? 0 = none := by
      by_contra hn
      obtain ⟨b, hb⟩ := Option.ne_none_iff_exists'.mp hn
      rw [hc 0 b hb] at h0
      cases h0
    rw [h, image, image, h0, before]
  | inr h =>
    obtain ⟨b, hb⟩ := h
    rw [image, image, hc r b hb, hb]

theorem image_zero (h0 : c.get? 0 = none) : c.image 0 = 0 := by rw [image, h0, Option.getD_none]

theorem image_of_get? {b : Ref} (h : c.get? r = some b) : c.image r = b := by
  rw [image, h, Option.getD_some]

/-- A settled image is the null node or a copy. -/
theorem Covers.image_cases (h : c.Covers r) (h0 : c.get? 0 = none) :
    c.image r = 0 ∨ c.get? r = some (c.image r) := by
  cases h with
  | inl h => exact .inl (by rw [h, image_zero h0])
  | inr h =>
    obtain ⟨b, hb⟩ := h
    exact .inr (by rw [image_of_get? hb, hb])

end Copies

namespace Copying

variable {s s' s'' : Copying} {l l' : List Ref} {depth : Nat}

theorem get?_reserve (s : Copying) (r a : Ref) :
    (s.reserve r).copies.get? a = if a = r then some s.graph.size else s.copies.get? a := by
  by_cases h : a = r
  · rw [if_pos h, reserve, Copies.get?, List.lookup_cons, h, beq_self_eq_true]
  · rw [if_neg h, reserve, Copies.get?, List.lookup_cons, beq_false_of_ne h]
    rfl

/-- What holds of a graph that is copied and of the copies made so far: no two nodes share a
copy, the null node has none, and nothing of the graph changed. -/
structure Sound (g : Graph) (s : Copying) : Prop where
  kept : g.Extends s.graph
  injective : ∀ a a' b, s.copies.get? a = some b → s.copies.get? a' = some b → a = a'
  null : s.copies.get? 0 = none
  inUse : ∀ a b, s.copies.get? a = some b → a < g.size ∧ b < s.graph.size

/-- What a run of copying adds: new nodes only, each the copy of one node, and filled with the
images of the links of that node. -/
structure Fills (g : Graph) (s s' : Copying) : Prop where
  kept : s.graph.Extends s'.graph
  keeps : s.copies.Keeps s'.copies
  fresh : ∀ a b, s'.copies.get? a = some b → s.copies.get? a = none → s.graph.size ≤ b
  filled : ∀ a b, s'.copies.get? a = some b → s.copies.get? a = none →
    s'.graph.get b = (g.get a).map s'.copies.image
  covers : ∀ a b, s'.copies.get? a = some b → s.copies.get? a = none →
    ∀ x ∈ g.children a, s'.copies.Covers x
  onto : ∀ b, s.graph.size ≤ b → b < s'.graph.size → ∃ a, s'.copies.get? a = some b

/-- A run of copying over nodes leads from the first state to the second and comes to their
images. -/
structure Copied (g : Graph) (l l' : List Ref) (s s' : Copying) : Prop where
  sound : Sound g s'
  fills : Fills g s s'
  images : l' = l.map s'.copies.image
  covers : ∀ r ∈ l, s'.copies.Covers r

theorem Fills.refl (g : Graph) (s : Copying) : Fills g s s where
  kept := .refl _
  keeps _ _ h := h
  fresh _ _ h hn := by
    rw [hn] at h
    cases h
  filled _ _ h hn := by
    rw [hn] at h
    cases h
  covers _ _ h hn := by
    rw [hn] at h
    cases h
  onto b hb hlt := absurd hlt (Nat.not_lt.mpr hb)

/-- Copies filled by a first run stay as they are in a second one, and so do their images. -/
theorem Fills.trans (h : Fills g s s') (h' : Fills g s' s'') (hs : Sound g s')
    (hs' : Sound g s'') : Fills g s s'' where
  kept := h.kept.trans h'.kept
  keeps a b hab := h'.keeps a b (h.keeps a b hab)
  fresh a b hab hn := by
    cases hm : s'.copies.get? a with
    | none => exact h.kept.size_le.trans (h'.fresh a b hab hm)
    | some b' =>
      have same := (h'.keeps a b' hm).symm.trans hab
      cases same
      exact h.fresh a b hm hn
  filled a b hab hn := by
    cases hm : s'.copies.get? a with
    | none => exact h'.filled a b hab hm
    | some b' =>
      have same := (h'.keeps a b' hm).symm.trans hab
      cases same
      rw [h'.kept.get_eq (hs.inUse a b hm).2, h.filled a b hm hn]
      apply Node.map_congr
      intro x hx
      exact ((h.covers a b hm hn x hx).image_eq h'.keeps hs'.null).symm
  covers a b hab hn x hx := by
    cases hm : s'.copies.get? a with
    | none => exact h'.covers a b hab hm x hx
    | some b' => exact (h.covers a b' hm hn x hx).mono h'.keeps
  onto b hb hlt := by
    by_cases hm : s'.graph.size ≤ b
    · exact h'.onto b hm hlt
    · obtain ⟨a, ha⟩ := h.onto b hb (Nat.lt_of_not_le hm)
      exact ⟨a, h'.keeps a b ha⟩

theorem Copied.nil (hs : Sound g s) : Copied g [] [] s s :=
  ⟨hs, .refl g s, rfl, List.forall_mem_nil _⟩

theorem Copied.append {m m' : List Ref} (h : Copied g l l' s s') (h' : Copied g m m' s' s'') :
    Copied g (l ++ m) (l' ++ m') s s'' where
  sound := h'.sound
  fills := h.fills.trans h'.fills h.sound h'.sound
  images := by
    rw [List.map_append, h'.images, h.images, List.map_congr_left fun r hr ↦
      ((h.covers r hr).image_eq h'.fills.keeps h'.sound.null).symm]
  covers r hr := by
    cases List.mem_append.mp hr with
    | inl hr => exact (h.covers r hr).mono h'.fills.keeps
    | inr hr => exact h'.covers r hr

/-! ### One node -/

/-- A node that was copied before is not copied again. -/
theorem copied_of_get? {b : Ref} (hs : Sound g s) (h : s.copies.get? r = some b) :
    Copied g [r] [b] s s where
  sound := hs
  fills := .refl g s
  images := by rw [List.map_singleton, Copies.image_of_get? h]
  covers := List.forall_mem_singleton.mpr (.inr ⟨b, h⟩)

theorem copied_null (hs : Sound g s) : Copied g [0] [0] s s where
  sound := hs
  fills := .refl g s
  images := by rw [List.map_singleton, Copies.image_zero hs.null]
  covers := List.forall_mem_singleton.mpr (.inl rfl)

theorem size_reserve (s : Copying) (r : Ref) : (s.reserve r).graph.size = s.graph.size + 1 :=
  Array.size_push ..

theorem extends_reserve (s : Copying) (r : Ref) : s.graph.Extends (s.reserve r).graph where
  size_le := by
    rw [size_reserve]
    exact Nat.le_succ _
  get_eq hx := by
    rw [Graph.get, Graph.get, reserve, Array.getElem?_push_lt hx, Array.getElem?_eq_getElem hx]

theorem Sound.reserve (hs : Sound g s) (hr : r < g.size) (h0 : r ≠ 0) :
    Sound g (s.reserve r) where
  kept := hs.kept.trans (extends_reserve s r)
  injective a a' b h h' := by
    rw [get?_reserve] at h h'
    split at h <;> split at h'
    · next ha ha' => rw [ha, ha']
    · cases h
      exact absurd (hs.inUse _ _ h').2 (Nat.lt_irrefl _)
    · cases h'
      exact absurd (hs.inUse _ _ h).2 (Nat.lt_irrefl _)
    · exact hs.injective a a' b h h'
  null := by rw [get?_reserve, if_neg (Ne.symm h0), hs.null]
  inUse a b h := by
    rw [get?_reserve] at h
    rw [size_reserve]
    split at h
    · next ha =>
      cases h
      exact ⟨ha ▸ hr, Nat.lt_succ_self _⟩
    · exact ⟨(hs.inUse a b h).1, Nat.lt_succ_of_lt (hs.inUse a b h).2⟩

/-- Filling a reserved node once all below it is copied makes it the copy of its source. -/
theorem Copied.fill {n : Node Ref} (h : Copied g (g.children r) l (s.reserve r) s')
    (hs : Sound g s) (hn : s.copies.get? r = none) (hl : n.children = l)
    (hp : n.payload = (g.get r).payload) :
    Copied g [r] [s.graph.size] s { s' with graph := s'.graph.set s.graph.size n } := by
  have registered : s'.copies.get? r = some s.graph.size := by
    apply h.fills.keeps
    rw [get?_reserve, if_pos rfl]
  have before {a : Ref} (ha : a ≠ r) : (s.reserve r).copies.get? a = s.copies.get? a := by
    rw [get?_reserve, if_neg ha]
  have inUse : s.graph.size < s'.graph.size := (h.sound.inUse r _ registered).2
  have sized : (s'.graph.set s.graph.size n).size = s'.graph.size := by
    simp [Graph.set, Graph.size]
  have others {b : Ref} (hb : b ≠ s.graph.size) :
      (s'.graph.set s.graph.size n).get b = s'.graph.get b := by
    rw [Graph.get_set, if_neg fun e ↦ hb e.1.symm]
  have content : n = (g.get r).map s'.copies.image := by
    apply Node.eq_of_payload
    · rw [hp, Node.payload_map]
    · rw [hl, h.images, Node.children_map]
      rfl
  have sound : Sound g { s' with graph := s'.graph.set s.graph.size n } := by
    refine ⟨⟨sized ▸ h.sound.kept.size_le, fun {x} hx ↦ ?_⟩, h.sound.injective, h.sound.null, ?_⟩
    · rw [others (hx.trans_le hs.kept.size_le).ne, h.sound.kept.get_eq hx]
    · intro a b hab
      rw [sized]
      exact h.sound.inUse a b hab
  have fills : Fills g s { s' with graph := s'.graph.set s.graph.size n } := by
    refine ⟨⟨sized ▸ inUse.le, fun {x} hx ↦ ?_⟩, ?_, ?_, ?_, ?_, ?_⟩
    · rw [others hx.ne, ((extends_reserve s r).trans h.fills.kept).get_eq hx]
    · intro a b hab
      apply h.fills.keeps
      rw [before, hab]
      rintro rfl
      rw [hn] at hab
      cases hab
    · intro a b hab hna
      by_cases ha : a = r
      · cases registered.symm.trans (ha ▸ hab)
        exact le_refl _
      · have later := h.fills.fresh a b hab ((before ha).trans hna)
        rw [size_reserve] at later
        exact Nat.le_of_succ_le later
    · intro a b hab hna
      by_cases ha : a = r
      · cases registered.symm.trans (ha ▸ hab)
        rw [ha, Graph.get_set, if_pos ⟨rfl, inUse⟩]
        exact content
      · have later := h.fills.fresh a b hab ((before ha).trans hna)
        rw [size_reserve] at later
        rw [others (Nat.ne_of_gt later)]
        exact h.fills.filled a b hab ((before ha).trans hna)
    · intro a b hab hna
      by_cases ha : a = r
      · rw [ha]
        exact h.covers
      · exact h.fills.covers a b hab ((before ha).trans hna)
    · intro b hb hlt
      rw [sized] at hlt
      cases Nat.eq_or_lt_of_le hb with
      | inl e => exact ⟨r, e ▸ registered⟩
      | inr later => exact h.fills.onto b (by rwa [size_reserve]) hlt
  exact ⟨sound, fills, by rw [List.map_singleton, Copies.image_of_get? registered],
    List.forall_mem_singleton.mpr (.inr ⟨_, registered⟩)⟩

/-! ### Runs -/

/-- Number of the nodes that have no copy yet. -/
def missing (g : Graph) (s : Copying) : Nat :=
  ((Finset.range g.size).filter fun r ↦ s.copies.get? r = none).card

private theorem none_of_keeps {a : Ref} (h : c.Keeps c') (hn : c'.get? a = none) :
    c.get? a = none := by
  by_contra hs
  obtain ⟨b, hb⟩ := Option.ne_none_iff_exists'.mp hs
  rw [h a b hb] at hn
  cases hn

/-- Whatever is copied on the way, no more is missing afterwards. -/
theorem missing_le (h : s.copies.Keeps s'.copies) : missing g s' ≤ missing g s := by
  apply Finset.card_le_card
  intro a ha
  rw [Finset.mem_filter] at ha ⊢
  exact ⟨ha.1, none_of_keeps h ha.2⟩

/-- A node that is reserved is missing no longer. -/
theorem missing_reserve (hr : r < g.size) (hn : s.copies.get? r = none) :
    missing g (s.reserve r) < missing g s := by
  apply Finset.card_lt_card
  rw [Finset.ssubset_iff_of_subset]
  · refine ⟨r, Finset.mem_filter.mpr ⟨Finset.mem_range.mpr hr, hn⟩, fun h ↦ ?_⟩
    have absent := (Finset.mem_filter.mp h).2
    rw [get?_reserve, if_pos rfl] at absent
    cases absent
  · intro a ha
    rw [Finset.mem_filter, get?_reserve] at ha
    rw [Finset.mem_filter]
    split at ha
    · cases ha.2
    · exact ha

/-- Copying nodes one after the other copies them all. -/
theorem Copied.mapM {f : Ref → StateM Copying Ref}
    (hf : ∀ r ∈ l, ∀ s, Sound g s → missing g s < depth →
      Copied g [r] [((f r).run s).1] s ((f r).run s).2)
    (hs : Sound g s) (hd : missing g s < depth) :
    Copied g l ((l.mapM f).run s).1 s ((l.mapM f).run s).2 := by
  induction l generalizing s with
  | nil => exact .nil hs
  | cons r l ih =>
    rw [List.forall_mem_cons] at hf
    have first := hf.1 s hs hd
    have others := ih hf.2 first.sound ((missing_le first.fills.keeps).trans_lt hd)
    rw [List.mapM_cons]
    exact first.append others

theorem run_copyTo_of_get? {b : Ref} (h : s.copies.get? r = some b) :
    (copyTo (depth + 1) r).run s = (b, s) := by
  simp only [StateT.run, copyTo, h]

theorem run_copyTo_null (h : s.copies.get? r = none) (hnull : (s.graph.get r).isNull) :
    (copyTo (depth + 1) r).run s = (r, s) := by
  simp only [StateT.run, copyTo, h, hnull, if_true]

/-- State and result once the node under a reserved reference has its links. -/
def filling (s : Copying) (filled : Node Ref × Copying) : Ref × Copying :=
  (s.graph.size, { filled.2 with graph := filled.2.graph.set s.graph.size filled.1 })

theorem run_copyTo (h : s.copies.get? r = none) (hnull : ¬(s.graph.get r).isNull) :
    (copyTo (depth + 1) r).run s =
      s.filling (((s.graph.get r).mapM (copyTo depth)).run (s.reserve r)) := by
  simp only [StateT.run, copyTo, h, hnull]
  rfl

/-- A run with depth left for every missing node copies the node and all below it. -/
theorem copied_copyTo (hg : g.IsWellFormed) (hs : Sound g s) (hr : r < g.size)
    (hd : missing g s < depth) :
    Copied g [r] [((copyTo depth r).run s).1] s ((copyTo depth r).run s).2 := by
  induction depth generalizing s r with
  | zero => exact absurd hd (Nat.not_lt_zero _)
  | succ depth ih =>
    have content : s.graph.get r = g.get r := hs.kept.get_eq hr
    cases hn : s.copies.get? r with
    | some b =>
      rw [run_copyTo_of_get? hn]
      exact copied_of_get? hs hn
    | none =>
      by_cases hnull : (s.graph.get r).isNull
      · rw [run_copyTo_null hn hnull, hg.eq_zero r hr (content ▸ hnull)]
        exact copied_null hs
      · have h0 : r ≠ 0 := by
          rintro rfl
          rw [content, hg.get_zero] at hnull
          exact hnull rfl
        have below := Copied.mapM (l := g.children r) (f := copyTo depth)
          (fun x hx s hs hd ↦ ih hs (hg.inUse r hr x hx) hd) (hs.reserve hr h0)
          ((missing_reserve hr hn).trans_le (Nat.le_of_lt_succ hd))
        obtain ⟨state, links, payload⟩ := (g.get r).visits_mapM (f := copyTo depth) (s.reserve r)
        rw [run_copyTo hn hnull, content, filling, state]
        exact below.fill hs hn links payload

/-- Depth beyond what is missing changes nothing. -/
theorem run_copyTo_eq {depth' : Nat} (hg : g.IsWellFormed) (hs : Sound g s) (hr : r < g.size)
    (hd : missing g s < depth) (hd' : missing g s < depth') :
    (copyTo depth r).run s = (copyTo depth' r).run s := by
  induction depth generalizing depth' s r with
  | zero => exact absurd hd (Nat.not_lt_zero _)
  | succ depth ih =>
    cases depth' with
    | zero => exact absurd hd' (Nat.not_lt_zero _)
    | succ depth' =>
      have list (l : List Ref) (hl : ∀ x ∈ l, x < g.size) {s : Copying} (hs : Sound g s)
          (hd : missing g s < depth) (hd' : missing g s < depth') :
          (l.mapM (copyTo depth)).run s = (l.mapM (copyTo depth')).run s := by
        induction l generalizing s with
        | nil => rfl
        | cons x l ihl =>
          rw [List.forall_mem_cons] at hl
          have first := ih hs hl.1 hd hd'
          have copied := copied_copyTo hg hs hl.1 hd'
          have fewer := missing_le (g := g) copied.fills.keeps
          have others := ihl hl.2 copied.sound (fewer.trans_lt hd) (fewer.trans_lt hd')
          rw [List.mapM_cons, List.mapM_cons, run_andThen, run_andThen, run_andThen, run_andThen,
            first, others]
      cases hn : s.copies.get? r with
      | some b => rw [run_copyTo_of_get? hn, run_copyTo_of_get? hn]
      | none =>
        by_cases hnull : (s.graph.get r).isNull
        · rw [run_copyTo_null hn hnull, run_copyTo_null hn hnull]
        · have content : s.graph.get r = g.get r := hs.kept.get_eq hr
          have h0 : r ≠ 0 := by
            rintro rfl
            rw [content, hg.get_zero] at hnull
            exact hnull rfl
          have fewer := missing_reserve hr hn
          rw [run_copyTo hn hnull, run_copyTo hn hnull, Node.run_mapM_congr]
          rw [content]
          exact list _ (hg.inUse r hr) (hs.reserve hr h0)
            (fewer.trans_le (Nat.le_of_lt_succ hd)) (fewer.trans_le (Nat.le_of_lt_succ hd'))

end Copying

end SqlWright
