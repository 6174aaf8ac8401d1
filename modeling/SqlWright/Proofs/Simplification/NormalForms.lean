import SqlWright.Proofs.Copying.Links
import SqlWright.Proofs.Simplification.Contents
import SqlWright.Proofs.Walks.PostOrder

/-!
# Normal forms

A simplification comes to each node after all that is below it. When it redirects the links of a
node, the nodes below have nothing left to replace, and neither have the nodes that the links are
redirected to: one that stands in for a child is below that child, or is a new constant. Nodes that
are done are not linked to the ones that still change. So one run over a graph without cycles
leaves nothing to replace below the root, nor at the root unless it fails there.
-/

namespace SqlWright

variable {γ : Type} {I : Graph → Prop} {p : Simplification} {base g g' : Graph}
  {root r r' c o : Ref} {part : Set Ref} {rank : Ref → Nat} {count : Nat}

namespace Graph

/-! ### Relinked nodes -/

/-- Links that are replaced by themselves are not changed. -/
theorem eq_of_changedLinks {old new : List Ref} (hl : new.length = old.length)
    (h : changedLinks old new = 0) : new = old := by
  induction old generalizing new with
  | nil => exact List.length_eq_zero_iff.1 hl
  | cons c old ih =>
    cases new with
    | nil => cases hl
    | cons c' new =>
      rw [changedLinks, List.zip_cons_cons, List.countP_cons, Nat.add_eq_zero_iff] at h
      obtain ⟨rest, first⟩ := h
      obtain rfl : c = c' := by simpa using first
      rw [ih (Nat.succ.inj hl) rest]

theorem changedLinks_self (links : List Ref) : changedLinks links links = 0 := by
  induction links with
  | nil => rfl
  | cons c links ih => simpa [changedLinks] using ih

theorem set_get (g : Graph) (r : Ref) : g.set r (g.get r) = g := by
  refine congrArg Graph.mk (Array.ext_getElem? fun i ↦ ?_)
  rw [get, Array.getElem?_setIfInBounds]
  split
  · next he =>
    subst he
    split
    · next hr => rw [Array.getElem?_eq_getElem hr, Option.getD_some]
    · next hr => rw [Array.getElem?_eq_none (Nat.le_of_not_lt hr)]
  · rfl

/-- Relinking gives the node the replacements of its links. -/
theorem exists_relinkChildren_eq {f : Ref → StateM Graph Ref} {s : Ref → γ} {t : Graph → Ref → γ}
    (inUse : r < g.size) (hg : I g)
    (hf : ∀ c ∈ g.children r, Keeps I (f c) fun g c' ↦ t g c' = s c) :
    ∃ g' n, I g' ∧ g.Extends g' ∧ n.map (t g') = (g.get r).map s ∧
      (g.relinkChildren r f).2 = g'.set r n := by
  obtain ⟨kept, grown, result⟩ := Node.keeps_mapM hf g hg
  obtain ⟨-, -, payload⟩ := (g.get r).visits_mapM (f := f) g
  rcases hm : ((g.get r).mapM f).run g with ⟨new, g'⟩
  rw [hm] at kept grown result payload
  have same := result g' (.refl g')
  refine ⟨g', new, kept, grown, same, ?_⟩
  simp only [relinkChildren, hm]
  split
  · next unchanged =>
    have length := congrArg (fun n ↦ n.children.length) same
    simp only [Node.children_map, List.length_map] at length
    have old : new = g'.get r := by
      rw [grown.get_eq inUse]
      exact Node.eq_of_payload payload (eq_of_changedLinks length unchanged)
    exact old ▸ (g'.set_get r).symm
  · rfl

/-- An old node outside a part is none of the part and of what was added since. -/
theorem ne_of_mem_since (hr : r ∈ base.since part g) (inUse : c < base.size) (outside : c ∉ part) :
    c ≠ r := by
  rintro rfl
  exact hr.elim outside fun hr ↦ (hr.1.trans_lt inUse).false

private theorem run_mapM_of_fixed {f : Ref → StateM Graph Ref} {links : List Ref}
    (fixed : ∀ c ∈ links, (f c).run g = (c, g)) : (links.mapM f).run g = (links, g) := by
  induction links with
  | nil => rfl
  | cons c links ih =>
    rw [List.forall_mem_cons] at fixed
    simp only [List.mapM_cons, run_andThen, fixed.1, ih fixed.2]
    rfl

/-- A node whose links stand for themselves is left as it is. -/
theorem relinkChildren_of_fixed {f : Ref → StateM Graph Ref}
    (fixed : ∀ c ∈ g.children r, (f c).run g = (c, g)) : g.relinkChildren r f = (0, g) := by
  have fixed' : ∀ c ∈ (g.get r).children, (f c).run g = (c, g) := fixed
  obtain ⟨state, links, payload⟩ := (g.get r).visits_mapM (f := f) g
  rw [run_mapM_of_fixed fixed'] at state links
  rcases hm : ((g.get r).mapM f).run g with ⟨new, g'⟩
  rw [hm] at state links payload
  obtain rfl : g' = g := state
  simp only [relinkChildren, hm, links]
  exact if_pos (changedLinks_self _)

end Graph

open SqlWright.Graph

namespace Simplification

/-! ### Nothing to replace -/

/-- A replacement is found from a node and from what its children are. -/
theorem replacement?_congr (node : g'.get r' = g.get r)
    (below : ∀ c ∈ g.children r, g'.get c = g.get c) :
    p.replacement? g' r' = p.replacement? g r := by
  have constants {c : Ref} (hc : c ∈ g.children r) : constant? g' c = constant? g c := by
    rw [constant?, constant?, below c hc]
  rw [children] at below constants
  unfold replacement?
  rw [node]
  split
  · next left right hn =>
    rw [hn] at constants
    simp only [foldConnective, constants (c := left) (by simp [Node.children]),
      constants (c := right) (by simp [Node.children])]
  · next left right hn =>
    rw [hn] at constants
    simp only [foldConnective, constants (c := left) (by simp [Node.children]),
      constants (c := right) (by simp [Node.children])]
  · next operand hn =>
    rw [hn] at constants
    rw [constants (c := operand) (by simp [Node.children])]
  · next operand type hn =>
    rw [hn] at below
    rw [below operand (by simp [Node.children])]
  · rfl

theorem substitute_of_none (h : p.replacement? g r = none) : (p.substitute r).run g = (r, g) := by
  simp only [StateT.run, substitute, h]

/-- Nodes whose links have nothing to replace are left as they are. -/
theorem substituteLinks_of_none {nodes : List Ref}
    (done : ∀ r ∈ nodes, ∀ c ∈ g.children r, p.replacement? g c = none) :
    p.substituteLinks g nodes = (0, g) := by
  induction nodes with
  | nil => rfl
  | cons r nodes ih =>
    rw [List.forall_mem_cons] at done
    have same : g.relinkChildren r p.substitute = (0, g) :=
      relinkChildren_of_fixed fun c hc ↦ substitute_of_none (done.1 c hc)
    rw [substituteLinks_cons, same, ih done.2]
    rfl

/-! ### Nodes that are done -/

/-- Of the nodes of a graph a simplification is done with a part. What is linked to from there,
and from the nodes added since, is also done and has nothing to replace. The other nodes are what
they were. -/
structure Done (p : Simplification) (g base : Graph) (part : Set Ref) : Prop where
  size_le : base.size ≤ g.size
  inUse : ∀ r ∈ part, r < base.size
  get_eq : ∀ r < base.size, r ∉ part → g.get r = base.get r
  links : ∀ r ∈ base.since part g, ∀ c ∈ g.children r,
    c ∈ base.since part g ∧ p.replacement? g c = none

namespace Done

theorem lt (h : p.Done g base part) (hr : r ∈ base.since part g) : r < g.size :=
  hr.elim (fun hr ↦ (h.inUse r hr).trans_le h.size_le) And.right

/-- What is found for a node that is done stays when nodes are added. -/
theorem replacement?_extend (h : p.Done g base part) (hg : g.Extends g')
    (hr : r ∈ base.since part g) : p.replacement? g' r = p.replacement? g r :=
  replacement?_congr (hg.get_eq (h.lt hr)) fun c hc ↦ hg.get_eq (h.lt (h.links r hr c hc).1)

/-- A new constant has nothing below it. -/
theorem add (h : p.Done g base part) (b : Bool) :
    p.Done (g.add (.literal (.boolean b))).2 base part := by
  obtain ⟨-, size, new⟩ := get_add (g := g) (n := .literal (.boolean b)) rfl
  have grown := g.extends_add (.literal (.boolean b))
  generalize (g.add (.literal (.boolean b))).2 = g' at *
  refine ⟨h.size_le.trans grown.size_le, h.inUse, fun r hr hn ↦ ?_, fun r hr c hc ↦ ?_⟩
  · rw [grown.get_eq (hr.trans_le h.size_le), h.get_eq r hr hn]
  · have old (hr : r ∈ base.since part g) :
        c ∈ base.since part g' ∧ p.replacement? g' c = none := by
      rw [children, grown.get_eq (h.lt hr)] at hc
      obtain ⟨mem, left⟩ := h.links r hr c hc
      exact ⟨mem_since grown.size_le mem, (h.replacement?_extend grown mem).trans left⟩
    rcases hr with hr | ⟨low, high⟩
    · exact old (.inl hr)
    · rw [size, Nat.lt_succ_iff_lt_or_eq] at high
      rcases high with high | rfl
      · exact old (.inr ⟨low, high⟩)
      · rw [children, new] at hc
        cases hc

/-- The simplification is done with a node that takes links to nodes with which it is done. -/
theorem set (h : p.Done g base part) {n : Node Ref} (inUse : r < base.size) (new : r ∉ part)
    (hn : ∀ c ∈ n.children, c ∈ base.since part g ∧ p.replacement? g c = none) :
    p.Done (g.set r n) base (insert r part) := by
  have size : (g.set r n).size = g.size := by simp [Graph.set, Graph.size]
  have same {x : Ref} (hx : x ∈ base.since part g) : (g.set r n).get x = g.get x := by
    rw [get_set, if_neg fun he ↦ ne_of_mem_since hx inUse new he.1]
  -- A node that is done links to none that is not, so what is found for it stays.
  have kept {x : Ref} (hx : x ∈ base.since part g ∧ p.replacement? g x = none) :
      x ∈ base.since (insert r part) (g.set r n) ∧ p.replacement? (g.set r n) x = none := by
    refine ⟨hx.1.imp (Set.mem_insert_of_mem r) (size ▸ id), Eq.trans ?_ hx.2⟩
    exact replacement?_congr (same hx.1) fun c hc ↦ same (h.links x hx.1 c hc).1
  refine ⟨size ▸ h.size_le, ?_, fun x hx hn ↦ ?_, fun x hx c hc ↦ ?_⟩
  · exact fun x hx ↦ hx.elim (fun he ↦ he ▸ inUse) (h.inUse x)
  · rw [Set.mem_insert_iff, not_or] at hn
    rw [get_set, if_neg fun he ↦ hn.1 he.1.symm, h.get_eq x hx hn.2]
  · rw [children] at hc
    by_cases he : x = r
    · subst he
      rw [get_set, if_pos ⟨rfl, inUse.trans_le h.size_le⟩] at hc
      exact kept (hn c hc)
    · have old : x ∈ base.since part g :=
        hx.imp (fun hx ↦ hx.resolve_left he) (size ▸ id)
      rw [same old] at hc
      exact kept (h.links x old c hc)

/-- What stands in for a node that is done is done, and has nothing to replace. -/
theorem keeps_substitute (hr : r ∈ base.since part g) :
    Keeps (fun g' ↦ p.Done g' base part ∧ g.size ≤ g'.size) (p.substitute r) fun g' o ↦
      (o ∈ base.since part g' ∧ p.replacement? g' o = none) = True := by
  rintro g₁ ⟨h₁, grown⟩
  have hr₁ := mem_since grown hr
  have stays {g' : Graph} {o : Ref} (hg : g₁.Extends g') (mem : o ∈ base.since part g₁)
      (done : p.replacement? g₁ o = none) :
      (o ∈ base.since part g' ∧ p.replacement? g' o = none) = True :=
    eq_true ⟨mem_since hg.size_le mem, (h₁.replacement?_extend hg mem).trans done⟩
  simp only [StateT.run, substitute]
  split
  · next o hs =>
    obtain ⟨mem, done⟩ := h₁.links r hr₁ o (mem_children_of_replacement? hs)
    exact ⟨⟨h₁, grown⟩, .refl g₁, fun g' hg ↦ stays hg mem done⟩
  · next b hs =>
    obtain ⟨fresh, size, new⟩ := get_add (g := g₁) (n := .literal (.boolean b)) rfl
    have more := g₁.extends_add (.literal (.boolean b))
    have added := h₁.add b
    refine ⟨⟨added, grown.trans more.size_le⟩, more, fun g' hg ↦ eq_true ?_⟩
    have mem : g₁.size ∈ base.since part (g₁.add (.literal (.boolean b))).2 :=
      .inr ⟨h₁.size_le, size ▸ Nat.lt_succ_self _⟩
    rw [fresh]
    refine ⟨mem_since hg.size_le mem, (added.replacement?_extend hg mem).trans ?_⟩
    simp only [replacement?, new]
  · next hs => exact ⟨⟨h₁, grown⟩, .refl g₁, fun g' hg ↦ stays hg hr₁ hs⟩

/-- Redirecting the links of a node leads them to nodes that are done and have nothing to replace,
if the simplification was done with the children of the node. -/
theorem exists_relinkChildren (h : p.Done g base part) (inUse : r < base.size)
    (below : ∀ c ∈ g.children r, c ∈ base.since part g) :
    ∃ g' n, p.Done g' base part ∧ (g.relinkChildren r p.substitute).2 = g'.set r n ∧
      ∀ c ∈ n.children, c ∈ base.since part g' ∧ p.replacement? g' c = none := by
  obtain ⟨g', n, ⟨h', -⟩, -, same, result⟩ :=
    exists_relinkChildren_eq (inUse.trans_le h.size_le) ⟨h, Nat.le_refl _⟩ fun c hc ↦
      keeps_substitute (below c hc)
  refine ⟨g', n, h', result, fun c hc ↦ ?_⟩
  have facts := congrArg Node.children same
  rw [Node.children_map, Node.children_map] at facts
  have fact := List.mem_map_of_mem
    (f := fun o ↦ o ∈ base.since part g' ∧ p.replacement? g' o = none) hc
  rw [facts] at fact
  obtain ⟨-, -, fact⟩ := List.mem_map.1 fact
  exact fact ▸ trivial

end Done

theorem substituteLinks_reverse_cons (p : Simplification) (g : Graph) (r : Ref)
    (nodes : List Ref) : (p.substituteLinks g (r :: nodes).reverse).2 =
      ((p.substituteLinks g nodes.reverse).2.relinkChildren r p.substitute).2 := by
  simp only [substituteLinks, List.reverse_cons, List.foldl_append, List.foldl_cons,
    List.foldl_nil]

/-- The next node from the bottom up finds the simplification done with its children. -/
theorem Done.exists_substituteLinks {nodes : List Ref}
    (h : p.Done (p.substituteLinks g nodes.reverse).2 g {x | x ∈ nodes}) (inUse : r < g.size)
    (new : r ∉ nodes) (below : ∀ c ∈ g.children r, c ∈ nodes) :
    ∃ g' n, p.Done g' g {x | x ∈ nodes} ∧
      (p.substituteLinks g (r :: nodes).reverse).2 = g'.set r n ∧
        ∀ c ∈ n.children, c ∈ g.since {x | x ∈ nodes} g' ∧ p.replacement? g' c = none := by
  rw [substituteLinks_reverse_cons]
  refine h.exists_relinkChildren inUse fun c hc ↦ ?_
  rw [children, h.get_eq r inUse new] at hc
  exact .inl (below c hc)

/-- The simplification is done with all nodes of a list to which it comes from the bottom up. -/
theorem done_substituteLinks {nodes : List Ref} (inUse : ∀ r ∈ nodes, r < g.size)
    (nodup : nodes.Nodup) (bottomUp : g.IsBottomUp nodes) :
    p.Done (p.substituteLinks g nodes.reverse).2 g {x | x ∈ nodes} := by
  induction nodes with
  | nil =>
    refine ⟨Nat.le_refl _, by simp, fun _ _ _ ↦ rfl, fun r hr ↦ ?_⟩
    exact (hr.elim (by simp) fun hr ↦ (hr.1.trans_lt hr.2).false).elim
  | cons r nodes ih =>
    rw [List.forall_mem_cons] at inUse
    obtain ⟨new, nodup⟩ := List.nodup_cons.1 nodup
    obtain ⟨g', n, done, result, links⟩ :=
      (ih inUse.2 nodup bottomUp.2).exists_substituteLinks inUse.1 new bottomUp.1
    have part : {x | x ∈ r :: nodes} = insert r {x | x ∈ nodes} := by
      ext x
      simp
    rw [result, part]
    exact done.set inUse.1 new links

/-! ### The root -/

/-- Graph in which the root has taken over the content of its replacement, if there is one, and
the count of links that goes on from there. -/
def replaceRoot (p : Simplification) (g : Graph) (root : Ref) (count : Nat) :
    Graph × Except Error Nat :=
  if (p.replacement? g root).isSome then
    let (other, g) := p.substitute root g
    match g.replace root other with
    | .ok g => (g, .ok (count + 1))
    | .error e => (g, .error e)
  else (g, .ok count)

theorem run_eq_replaceRoot (p : Simplification) (g : Graph) (root : Ref) :
    p.run g root = p.replaceRoot (p.substituteLinks g (g.postOrder root)).2 root
      (p.substituteLinks g (g.postOrder root)).1 := rfl

theorem replaceRoot_of_none (h : p.replacement? g root = none) :
    p.replaceRoot g root count = (g, .ok count) := by
  simp only [replaceRoot, h]
  rfl

/-- The root takes over the content of a node of its own kind alone. -/
theorem replaceRoot_of_existing (h : p.replacement? g root = some (.existing o)) :
    p.replaceRoot g root count =
      if g.kind root = g.kind o then (g.set root (g.get o), .ok (count + 1))
      else (g, .error (.kindMismatch (g.kind root) (g.kind o))) := by
  simp only [replaceRoot, substitute, h, Option.isSome_some, if_true, replace]
  by_cases same : root = o
  · rw [same, if_pos rfl, if_pos rfl, set_get]
  · rw [if_neg same]
    by_cases kinds : g.kind root = g.kind o
    · rw [if_pos kinds, if_pos kinds]
    · rw [if_neg kinds, if_neg kinds]

/-- No root becomes a constant. -/
theorem replaceRoot_of_constant {b : Bool} (h : p.replacement? g root = some (.constant b))
    (inUse : root < g.size) :
    p.replaceRoot g root count =
      ((g.add (.literal (.boolean b))).2, .error (.kindMismatch .unary .literal)) := by
  obtain ⟨fresh, -, new⟩ := get_add (g := g) (n := .literal (.boolean b)) rfl
  have grown := g.extends_add (.literal (.boolean b))
  have negation : g.kind root = .unary := by
    unfold replacement? at h
    split at h
    · obtain ⟨_, -, other⟩ := Option.map_eq_some_iff.1 h
      cases other
    · obtain ⟨_, -, other⟩ := Option.map_eq_some_iff.1 h
      cases other
    · next hn =>
      rw [kind, hn]
      rfl
    · split at h
      · split at h <;> cases h
      · cases h
    · cases h
  have kinds : (g.add (.literal (.boolean b))).2.kind root = .unary ∧
      (g.add (.literal (.boolean b))).2.kind g.size = .literal := by
    rw [kind, kind, grown.get_eq inUse, new]
    exact ⟨negation, rfl⟩
  simp only [replaceRoot, substitute, h, Option.isSome_some, if_true, replace, fresh,
    if_neg inUse.ne, kinds.1, kinds.2]
  rfl

/-! ### One simplification -/

/-- A simplification that is done with what is below the root and with the root changes nothing. -/
theorem run_of_none (h : ∀ r, g.Reaches root r → p.replacement? g r = none) :
    p.run g root = (g, .ok 0) := by
  have closed : ∀ r ∈ {r | g.Reaches root r}, ∀ c ∈ g.children r, g.Reaches root c :=
    fun r hr c hc ↦ hr.tail hc
  have links : p.substituteLinks g (g.postOrder root) = (0, g) :=
    substituteLinks_of_none fun r hr c hc ↦
      h c (closed r (mem_of_mem_postOrder closed .refl r hr) c hc)
  rw [run_eq_replaceRoot, links, replaceRoot_of_none (h root .refl)]

/-- What a simplification leaves below a root that it is done with. -/
theorem Done.replacement?_of_reaches (h : p.Done g base part) (hroot : root ∈ part)
    (root_none : p.replacement? g root = none) (hr : g.Reaches root r) :
    p.replacement? g r = none := by
  suffices r ∈ base.since part g ∧ p.replacement? g r = none from this.2
  induction hr with
  | refl => exact ⟨.inl hroot, root_none⟩
  | tail _ hc ih => exact h.links _ ih.1 _ hc

/-- A simplification that is done with what is below the root only comes to the root. -/
theorem Done.run (h : p.Done g base part) (hroot : root ∈ part) :
    p.run g root = p.replaceRoot g root 0 := by
  have closed : ∀ r ∈ base.since part g, ∀ c ∈ g.children r, c ∈ base.since part g :=
    fun r hr c hc ↦ (h.links r hr c hc).1
  have links : p.substituteLinks g (g.postOrder root) = (0, g) :=
    substituteLinks_of_none fun r hr c hc ↦
      (h.links r (mem_of_mem_postOrder closed (.inl hroot) r hr) c hc).2
  rw [run_eq_replaceRoot, links]

private theorem set_set (g : Graph) (r : Ref) (n m : Node Ref) : (g.set r n).set r m = g.set r m :=
  congrArg Graph.mk (Array.setIfInBounds_setIfInBounds ..)

/-- One run leaves nothing to replace, the root included, unless it fails at the root. Then the
next run fails there as well. -/
theorem run_normal (ranked : g.IsRanked part rank) (hroot : root ∈ part) :
    (∀ n, (p.run g root).2 = .ok n →
      ∀ r, (p.run g root).1.Reaches root r → p.replacement? (p.run g root).1 r = none) ∧
    ∀ e, (p.run g root).2 = .error e → (p.run (p.run g root).1 root).2 = .error e := by
  obtain ⟨below, order, nodup, bottomUp⟩ := ranked.exists_postOrder hroot
  obtain ⟨new, nodup⟩ := List.nodup_cons.1 nodup
  have inUse : ∀ r ∈ root :: below, r < g.size := by
    intro r hr
    have mem : r ∈ g.postOrder root := by rwa [order, List.mem_reverse]
    exact ranked.inUse r
      (mem_of_mem_postOrder (fun r hr c hc ↦ (ranked.below r hr c hc).1) hroot r mem)
  rw [List.forall_mem_cons] at inUse
  have doneBelow : p.Done (p.substituteLinks g below.reverse).2 g {x | x ∈ below} :=
    done_substituteLinks inUse.2 nodup bottomUp.2
  obtain ⟨g', n, before, result, links⟩ := doneBelow.exists_substituteLinks inUse.1 new bottomUp.1
  have rootInUse : root < (g'.set root n).size := by
    simpa [Graph.set, Graph.size] using inUse.1.trans_le before.size_le
  have done := before.set inUse.1 new links
  have mem : root ∈ insert root {x | x ∈ below} := Set.mem_insert ..
  rw [run_eq_replaceRoot, order, result]
  generalize (p.substituteLinks g (root :: below).reverse).1 = count
  rcases found : p.replacement? (g'.set root n) root with _ | o | b
  · rw [replaceRoot_of_none found]
    exact ⟨fun _ _ r hr ↦ done.replacement?_of_reaches mem found hr, fun e he ↦ by cases he⟩
  · have link := mem_children_of_replacement? found
    rw [children, get_set, if_pos ⟨rfl, inUse.1.trans_le before.size_le⟩] at link
    obtain ⟨below', left⟩ := links o link
    have apart := ne_of_mem_since below' inUse.1 new
    rw [replaceRoot_of_existing found]
    by_cases same : (g'.set root n).kind root = (g'.set root n).kind o
    · rw [if_pos same, set_set, get_set, if_neg fun he ↦ apart he.1]
      have taken := before.set inUse.1 new (before.links o below')
      refine ⟨fun _ _ r hr ↦ taken.replacement?_of_reaches mem ?_ hr, fun e he ↦ by cases he⟩
      rw [← left]
      refine replacement?_congr ?_ fun c hc ↦ ?_
      · rw [get_set, if_pos ⟨rfl, inUse.1.trans_le before.size_le⟩]
      · rw [get_set, if_neg fun he ↦
          ne_of_mem_since (before.links o below' c hc).1 inUse.1 new he.1]
    · rw [if_neg same]
      refine ⟨fun _ he ↦ (by cases he), fun e he ↦ ?_⟩
      rw [done.run mem, replaceRoot_of_existing found, if_neg same]
      exact he
  · rw [replaceRoot_of_constant found rootInUse]
    refine ⟨fun _ he ↦ (by cases he), fun e he ↦ ?_⟩
    have added := done.add b
    rw [added.run mem, replaceRoot_of_constant (b := b) ?_ (rootInUse.trans_le ?_)]
    · exact he
    · rw [done.replacement?_extend (Graph.extends_add ..) (.inl mem), found]
    · exact (Graph.extends_add ..).size_le

end Simplification

end SqlWright
