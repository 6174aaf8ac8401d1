import SqlWright.Proofs.Meaning.Interpretation
import SqlWright.Proofs.Simplification.Ranks

/-!
# Values under simplification

Simplifications keep the value of every node, however nodes are shared and in whatever order
links are redirected: a substitute has the value of the node it stands in for, so each node is
computed from the values it was computed from before. The values may be of any kind, as long as
truth values and casts obey their laws.
-/

namespace SqlWright

/-- Three-valued disjunction: true decides, and unknown is what is left open. -/
def disjunction3 : Option Bool → Option Bool → Option Bool
  | some true, _ | _, some true => some true
  | some false, some false => some false
  | _, _ => none

/-- What nodes denote at each point of evaluation, from what their children denote at all of
them. Connectives follow three-valued logic, and a cast to a type twice is one. -/
structure Denotation (E V : Type) where
  node : Node (E → V) → E → V
  /-- Value that stands for true, false or unknown. -/
  truth : Option Bool → V
  boolean (b : Bool) (e : E) : node (.literal (.boolean b)) e = truth (some b)
  and {x y : E → V} {e : E} {a b : Option Bool} : x e = truth a → y e = truth b →
    node (.binary .and x y) e = truth (conjunction3 a b)
  or {x y : E → V} {e : E} {a b : Option Bool} : x e = truth a → y e = truth b →
    node (.binary .or x y) e = truth (disjunction3 a b)
  not {x : E → V} {e : E} {a : Option Bool} : x e = truth a →
    node (.unary .negation x) e = truth (a.map Bool.not)
  cast (x : E → V) (type : SqlType) :
    node (.cast (node (.cast x type)) type) = node (.cast x type)

namespace Denotation

variable {E V : Type}

/-- What a tree denotes. -/
def value (D : Denotation E V) (t : Tree) : E → V := t.fold fun n ↦ D.node (n.map (·.2))

theorem value_mk (D : Denotation E V) (i : Nat) (n : Node Tree) :
    D.value (.mk i n) = D.node (n.map D.value) := by
  rw [value, Tree.fold_mk, Node.map_map]
  rfl

/-- What is denoted is a truth value everywhere. -/
def IsTruth (D : Denotation E V) (x : E → V) : Prop := ∀ e, ∃ a, x e = D.truth a

end Denotation

/-- Operands of a connective of three-valued logic. -/
def Node.connected {α : Type} : Node α → List α
  | .binary .and left right | .binary .or left right => [left, right]
  | .unary .negation operand => [operand]
  | _ => []

theorem Node.connected_subset {α : Type} (n : Node α) : n.connected ⊆ n.children := by
  unfold connected
  split <;> simp [children]

theorem Node.connected_map {α β : Type} (f : α → β) (n : Node α) :
    (n.map f).connected = n.connected.map f := by
  cases n with
  | binary op => cases op <;> rfl
  | unary op => cases op <;> rfl
  | _ => rfl

section Values

variable {E V : Type} {D : Denotation E V} {base g g' : Graph} {root r c : Ref} {part : Set Ref}
  {rank : Ref → Nat}

namespace Graph

/-- Value of the tree that is seen from a node. -/
def value (D : Denotation E V) (g : Graph) (r : Ref) : E → V := D.value (g.tree r)

/-- The connectives below a root have truth values for operands, which is so in every graph if
truth values are all there is. -/
def IsLogicalFrom (D : Denotation E V) (g : Graph) (root : Ref) : Prop :=
  ∀ r, g.Reaches root r → ∀ c ∈ (g.get r).connected, D.IsTruth (g.value D c)

namespace IsRanked

theorem value_eq (h : g.IsRanked part rank) (hr : r ∈ part) :
    g.value D r = D.node ((g.get r).map (g.value D)) := by
  rw [value, h.tree_eq hr, D.value_mk, Node.map_map]
  rfl

/-- A node that takes other children keeps all values, if it has its value with these. -/
theorem value_set (h : g.IsRanked part rank) {n : Node Ref}
    (hn : ∀ c ∈ n.children, c ∈ part ∧ rank c < rank r)
    (hv : D.node (n.map (g.value D)) = g.value D r) {r' : Ref} (hr : r' ∈ part) :
    (g.set r n).value D r' = g.value D r' := by
  have relinked := h.set hn
  refine relinked.induction (P := fun r' ↦ (g.set r n).value D r' = g.value D r')
    (fun r' hr ih ↦ ?_) hr
  rw [relinked.value_eq hr, Node.map_congr ih, get_set]
  split
  · next he => rw [hv, he.1]
  · rw [h.value_eq hr]

theorem value_extend (h : g.IsRanked part rank) (hg : g.Extends g') (hr : r ∈ part) :
    g'.value D r = g.value D r := by
  rw [value, value, h.tree_extend hg hr]

end IsRanked

/-- Nodes of a part of a graph, and those that were added since. -/
def since (base : Graph) (part : Set Ref) (g : Graph) : Set Ref :=
  {r | r ∈ part ∨ base.size ≤ r ∧ r < g.size}

theorem mem_since (hg : g.size ≤ g'.size) (hr : r ∈ base.since part g) : r ∈ base.since part g' :=
  hr.imp id fun hr ↦ ⟨hr.1, hr.2.trans_le hg⟩

theorem since_congr (h : g'.size = g.size) : base.since part g' = base.since part g := by
  rw [since, since, h]

/-- Of a graph with one node more only that one is new. -/
theorem mem_since_of_size (h : g'.size = g.size + 1) (hr : r ∈ base.since part g') :
    r ∈ base.since part g ∨ r = g.size := by
  rcases hr with hr | ⟨hr, hlt⟩
  · exact .inl (.inl hr)
  · rw [h, Nat.lt_succ_iff_lt_or_eq] at hlt
    exact hlt.imp (fun hlt ↦ .inr ⟨hr, hlt⟩) id

/-- A graph that was changed keeps the values of a part, and its connectives have truth values
for operands. Nodes added since have the lowest rank. -/
structure Agrees (D : Denotation E V) (g base : Graph) (part : Set Ref) (rank : Ref → Nat) :
    Prop where
  size_le : base.size ≤ g.size
  lowest (r : Ref) : base.size ≤ r → rank r = 0
  ranked : g.IsRanked (base.since part g) rank
  value : ∀ r ∈ part, g.value D r = base.value D r
  logical : ∀ r ∈ base.since part g, ∀ c ∈ (g.get r).connected, D.IsTruth (g.value D c)

namespace Agrees

theorem mem_of_connected (h : g.Agrees D base part rank) (hr : r ∈ base.since part g)
    (hc : c ∈ (g.get r).connected) : c ∈ base.since part g :=
  (h.ranked.below r hr c (Node.connected_subset _ hc)).1

/-- A new constant changes nothing. -/
theorem add (h : g.Agrees D base part rank) (b : Bool) :
    (g.add (.literal (.boolean b))).2.Agrees D base part rank := by
  obtain ⟨-, size, new⟩ := get_add (g := g) (n := .literal (.boolean b)) rfl
  have grown := g.extends_add (.literal (.boolean b))
  generalize (g.add (.literal (.boolean b))).2 = g' at *
  have extended := h.ranked.extend grown
  refine ⟨h.size_le.trans grown.size_le, h.lowest, ⟨fun r hr ↦ ?_, fun r hr c hc ↦ ?_, fun r hr ↦ ?_⟩,
    fun r hr ↦ ?_, fun r hr c hc ↦ ?_⟩
  · rcases mem_since_of_size size hr with hr | rfl
    · exact extended.inUse r hr
    · exact size ▸ Nat.lt_succ_self _
  · rcases mem_since_of_size size hr with hr | rfl
    · obtain ⟨hp, hlt⟩ := extended.below r hr c hc
      exact ⟨mem_since grown.size_le hp, hlt⟩
    · rw [children, new] at hc
      cases hc
  · rcases mem_since_of_size size hr with hr | rfl
    · exact extended.rank_le r hr
    · rw [h.lowest g.size h.size_le]
      exact Nat.zero_le _
  · rw [h.ranked.value_extend grown (.inl hr)]
    exact h.value r hr
  · rcases mem_since_of_size size hr with hr | rfl
    · rw [grown.get_eq (h.ranked.inUse r hr)] at hc
      rw [h.ranked.value_extend grown (h.mem_of_connected hr hc)]
      exact h.logical r hr c hc
    · rw [new] at hc
      cases hc

/-- A node may take other children, if it has its value with these. -/
theorem set (h : g.Agrees D base part rank) {n : Node Ref}
    (hn : ∀ c ∈ n.children, c ∈ base.since part g ∧ rank c < rank r)
    (hv : D.node (n.map (g.value D)) = g.value D r)
    (hl : ∀ c ∈ n.connected, D.IsTruth (g.value D c)) :
    (g.set r n).Agrees D base part rank := by
  have size : (g.set r n).size = g.size := by simp [Graph.set, Graph.size]
  have same : base.since part (g.set r n) = base.since part g := since_congr size
  refine ⟨size ▸ h.size_le, h.lowest, same ▸ h.ranked.set hn, fun r' hr' ↦ ?_, fun r' hr' c hc ↦ ?_⟩
  · rw [h.ranked.value_set hn hv (.inl hr')]
    exact h.value r' hr'
  · rw [same] at hr'
    rw [get_set] at hc
    split at hc
    · rw [h.ranked.value_set hn hv (hn c (Node.connected_subset _ hc)).1]
      exact hl c hc
    · rw [h.ranked.value_set hn hv (h.mem_of_connected hr' hc)]
      exact h.logical r' hr' c hc

end Agrees

end Graph

namespace Simplification

open SqlWright.Graph

/-- One constant is neutral for a connective, and its negation decides the result. -/
structure IsIdentity (combine : Option Bool → Option Bool → Option Bool) (identity : Bool) :
    Prop where
  left (a : Option Bool) : combine (some identity) a = a
  right (a : Option Bool) : combine a (some identity) = a
  left_not (a : Option Bool) : combine (some !identity) a = some !identity
  right_not (a : Option Bool) : combine a (some !identity) = some !identity

theorem isIdentity_conjunction3 : IsIdentity conjunction3 true := by
  constructor <;> intro a <;> rcases a with _ | _ | _ <;> rfl

theorem isIdentity_disjunction3 : IsIdentity disjunction3 false := by
  constructor <;> intro a <;> rcases a with _ | _ | _ <;> rfl

theorem value_of_constant? (h : g.IsRanked part rank) (hr : r ∈ part) {b : Bool}
    (hb : constant? g r = some b) (e : E) : g.value D r e = D.truth (some b) := by
  unfold constant? at hb
  split at hb
  · next value hn =>
    cases hb
    rw [h.value_eq hr, hn]
    exact D.boolean _ e
  · cases hb

/-- The operand that a connective comes to has the value of the connective. -/
theorem value_foldConnective {op : BinaryOp} {combine : Option Bool → Option Bool → Option Bool}
    {identity : Bool} (laws : IsIdentity combine identity)
    (hop : ∀ {x y : E → V} {e : E} {a b : Option Bool}, x e = D.truth a → y e = D.truth b →
      D.node (.binary op x y) e = D.truth (combine a b))
    (h : g.IsRanked part rank) {left right o : Ref} (hl : left ∈ part) (hr : right ∈ part)
    (tl : D.IsTruth (g.value D left)) (tr : D.IsTruth (g.value D right))
    (ho : foldConnective g identity left right = some o) :
    (o = left ∨ o = right) ∧
      g.value D o = D.node (.binary op (g.value D left) (g.value D right)) := by
  unfold foldConnective at ho
  split at ho
  · next b hb =>
    cases ho
    refine ⟨by split <;> simp, funext fun e ↦ ?_⟩
    have constant := value_of_constant? (D := D) h hl hb e
    obtain ⟨a, ha⟩ := tr e
    rw [hop constant ha]
    split
    · next he => rw [ha, he, laws.left]
    · next he => rw [constant, Bool.eq_not_of_ne he, laws.left_not]
  · next b _ hb =>
    cases ho
    refine ⟨by split <;> simp, funext fun e ↦ ?_⟩
    have constant := value_of_constant? (D := D) h hr hb e
    obtain ⟨a, ha⟩ := tl e
    rw [hop ha constant]
    split
    · next he => rw [ha, he, laws.right]
    · next he => rw [constant, Bool.eq_not_of_ne he, laws.right_not]
  · cases ho

/-- Value of what stands in for a node. -/
def Replacement.value (D : Denotation E V) (g : Graph) : Replacement → E → V
  | existing r => g.value D r
  | constant b => D.node (.literal (.boolean b))

/-- A replacement has the value of the node, and if it is a node, it is one further below. -/
theorem value_replacement? {p : Simplification} {s : Replacement} (h : g.Agrees D base part rank)
    (hr : r ∈ base.since part g) (hs : p.replacement? g r = some s) :
    s.value D g = g.value D r ∧
      ∀ o, s = .existing o → o ∈ base.since part g ∧ rank o ≤ rank r := by
  have below (c : Ref) (hc : c ∈ (g.get r).children) := h.ranked.below r hr c hc
  have logical := h.logical r hr
  rw [h.ranked.value_eq hr]
  unfold replacement? at hs
  split at hs
  · next left right hn =>
    rw [hn] at below logical ⊢
    obtain ⟨o, ho, rfl⟩ := Option.map_eq_some_iff.1 hs
    simp only [Node.children, Node.connected, List.mem_cons, List.not_mem_nil, or_false,
      forall_eq_or_imp, forall_eq] at below logical
    obtain ⟨side, value⟩ := value_foldConnective isIdentity_conjunction3 D.and h.ranked below.1.1
      below.2.1 logical.1 logical.2 ho
    refine ⟨value, ?_⟩
    rintro _ ⟨⟩
    rcases side with rfl | rfl
    · exact ⟨below.1.1, below.1.2.le⟩
    · exact ⟨below.2.1, below.2.2.le⟩
  · next left right hn =>
    rw [hn] at below logical ⊢
    obtain ⟨o, ho, rfl⟩ := Option.map_eq_some_iff.1 hs
    simp only [Node.children, Node.connected, List.mem_cons, List.not_mem_nil, or_false,
      forall_eq_or_imp, forall_eq] at below logical
    obtain ⟨side, value⟩ := value_foldConnective isIdentity_disjunction3 D.or h.ranked below.1.1
      below.2.1 logical.1 logical.2 ho
    refine ⟨value, ?_⟩
    rintro _ ⟨⟩
    rcases side with rfl | rfl
    · exact ⟨below.1.1, below.1.2.le⟩
    · exact ⟨below.2.1, below.2.2.le⟩
  · next operand hn =>
    rw [hn] at below ⊢
    obtain ⟨b, hb, rfl⟩ := Option.map_eq_some_iff.1 hs
    refine ⟨funext fun e ↦ ?_, by simp⟩
    have constant := value_of_constant? (D := D) h.ranked
      (below operand (by simp [Node.children])).1 hb e
    rw [Node.map, D.not constant, Replacement.value, D.boolean]
    rfl
  · next operand type hn =>
    split at hs
    · next inner type' hi =>
      split at hs
      · next he =>
        cases hs
        rw [hn] at below ⊢
        obtain ⟨hp, hlt⟩ := below operand (by simp [Node.children])
        refine ⟨?_, ?_⟩
        · rw [Replacement.value, Node.map, h.ranked.value_eq hp, hi, he]
          exact (D.cast _ _).symm
        · rintro _ ⟨⟩
          exact ⟨hp, hlt.le⟩
      · cases hs
    · cases hs
  · cases hs

/-- A substitute has the value of the node it stands in for, and is no higher. -/
theorem keeps_value (p : Simplification) (h : g.Agrees D base part rank)
    (hr : r ∈ base.since part g) {bound : Nat} (hb : rank r < bound) :
    Keeps (fun g' ↦ g'.Agrees D base part rank ∧ g.Extends g') (p.substitute r) fun g' o ↦
      (g'.value D o, o ∈ base.since part g' ∧ rank o < bound) = (g.value D r, True) := by
  rintro g₁ ⟨h₁, grown⟩
  have same : g₁.value D r = g.value D r := h.ranked.value_extend grown hr
  have node {g' : Graph} {o : Ref} (ho : o ∈ base.since part g₁) (hv : g₁.value D o = g.value D r)
      (hk : rank o ≤ rank r) (hg : g₁.Extends g') :
      (g'.value D o, o ∈ base.since part g' ∧ rank o < bound) = (g.value D r, True) :=
    Prod.ext ((h₁.ranked.value_extend hg ho).trans hv)
      (eq_true ⟨mem_since hg.size_le ho, hk.trans_lt hb⟩)
  have hr₁ := mem_since grown.size_le hr
  have replaced (s : Replacement) (hs : p.replacement? g₁ r = some s) := value_replacement? h₁ hr₁ hs
  simp only [StateT.run, substitute]
  split
  · next o hs =>
    obtain ⟨value, side⟩ := replaced _ hs
    obtain ⟨ho, hk⟩ := side o rfl
    exact ⟨⟨h₁, grown⟩, .refl g₁, fun g' hg ↦ node ho (value.trans same) hk hg⟩
  · next b hs =>
    obtain ⟨value, -⟩ := replaced _ hs
    obtain ⟨fresh, size, new⟩ := get_add (g := g₁) (n := .literal (.boolean b)) rfl
    have more := g₁.extends_add (.literal (.boolean b))
    have added := h₁.add b
    refine ⟨⟨added, grown.trans more⟩, more, fun g' hg ↦ ?_⟩
    have hnew : g₁.size ∈ base.since part (g₁.add (.literal (.boolean b))).2 :=
      .inr ⟨h₁.size_le, size ▸ Nat.lt_succ_self _⟩
    rw [fresh]
    refine Prod.ext ?_ (eq_true ⟨mem_since hg.size_le hnew, ?_⟩)
    · rw [added.ranked.value_extend hg hnew, added.ranked.value_eq hnew, new]
      exact value.trans same
    · rw [h₁.lowest _ h₁.size_le]
      exact (Nat.zero_le _).trans_lt hb
  · exact ⟨⟨h₁, grown⟩, .refl g₁, fun g' hg ↦ node hr₁ same le_rfl hg⟩

/-- Redirecting the links of one node keeps the values. -/
theorem agrees_relinkChildren (p : Simplification) (h : g.Agrees D base part rank)
    (hr : r ∈ base.since part g) :
    (g.relinkChildren r p.substitute).2.Agrees D base part rank ∧
      g.size ≤ (g.relinkChildren r p.substitute).2.size := by
  obtain ⟨g', n, ⟨h', grown⟩, -, same, result⟩ :=
    exists_relinkChildren (r := r) ⟨h, .refl g⟩ fun c hc ↦
      keeps_value p h (h.ranked.below r hr c hc).1 (h.ranked.below r hr c hc).2
  have values : n.map (g'.value D) = (g.get r).map (g.value D) := by
    simpa [Node.map_map, Function.comp_def] using congrArg (Node.map Prod.fst) same
  have below : ∀ c ∈ n.children, c ∈ base.since part g' ∧ rank c < rank r := by
    have facts := congrArg (fun n ↦ (Node.map Prod.snd n).children) same
    simp only [Node.map_map, Node.children_map, Function.comp_def] at facts
    intro c hc
    have fact := List.mem_map_of_mem (f := fun c ↦ c ∈ base.since part g' ∧ rank c < rank r) hc
    rw [facts] at fact
    obtain ⟨-, -, fact⟩ := List.mem_map.1 fact
    exact fact ▸ trivial
  have logical : ∀ c ∈ n.connected, D.IsTruth (g'.value D c) := by
    have operands := congrArg Node.connected values
    rw [Node.connected_map, Node.connected_map] at operands
    intro c hc
    have operand := List.mem_map_of_mem (f := g'.value D) hc
    rw [operands] at operand
    obtain ⟨c', hc', he⟩ := List.mem_map.1 operand
    exact he ▸ h.logical r hr c' hc'
  rcases result with result | result
  · exact result ▸ ⟨h', grown.size_le⟩
  · rw [result]
    refine ⟨h'.set below ?_ logical, ?_⟩
    · rw [values, h.ranked.value_extend grown hr, h.ranked.value_eq hr]
    · simpa [Graph.set, Graph.size] using grown.size_le

/-- One simplification keeps the values, also where it fails at the root. -/
theorem agrees_run (p : Simplification) (h : g.Agrees D base part rank)
    (hroot : root ∈ part) : (p.run g root).1.Agrees D base part rank := by
  have closed : ∀ r ∈ base.since part g, ∀ c ∈ g.children r, c ∈ base.since part g :=
    fun r hr c hc ↦ (h.ranked.below r hr c hc).1
  obtain ⟨h₁, -⟩ : (p.substituteLinks g (g.postOrder root)).2.Agrees D base part rank ∧
      g.size ≤ (p.substituteLinks g (g.postOrder root)).2.size := by
    refine substituteLinks_keeps (I := fun g' ↦ g'.Agrees D base part rank ∧ g.size ≤ g'.size)
      ⟨h, le_rfl⟩ fun r hr g' hg ↦ ?_
    have hr' := mem_since hg.2 (mem_of_mem_postOrder closed (.inl hroot) r hr)
    obtain ⟨kept, grown⟩ := agrees_relinkChildren p hg.1 hr'
    exact ⟨kept, hg.2.trans grown⟩
  unfold run
  generalize p.substituteLinks g (g.postOrder root) = s at h₁ ⊢
  obtain ⟨count, g₁⟩ := s
  dsimp only at h₁ ⊢
  split
  · obtain ⟨⟨h₂, grown⟩, -, result⟩ :=
      keeps_value p h₁ (.inl hroot) (Nat.lt_succ_self _) g₁ ⟨h₁, .refl g₁⟩
    have substitute := result _ (.refl _)
    simp only [StateT.run] at h₂ grown substitute
    generalize p.substitute root g₁ = s at h₂ grown substitute ⊢
    obtain ⟨other, g₂⟩ := s
    dsimp only at h₂ grown substitute ⊢
    obtain ⟨value, side⟩ := Prod.mk.injEq .. ▸ substitute
    obtain ⟨ho, hk⟩ := of_eq_true side
    have same := h₁.ranked.value_extend (D := D) grown (.inl hroot)
    unfold replace
    split
    · next g₃ hg =>
      split at hg
      · cases hg
        exact h₂
      · split at hg
        · cases hg
          refine h₂.set (fun c hc ↦ ?_) ?_ (h₂.logical other ho)
          · obtain ⟨hp, hlt⟩ := h₂.ranked.below other ho c hc
            exact ⟨hp, hlt.trans_le (Nat.le_of_lt_succ hk)⟩
          · rw [← h₂.ranked.value_eq ho, value, same]
        · cases hg
    · exact h₂
  · exact h₁

end Simplification

namespace Graph

/-- Simplifications keep the values, up to the first that fails and in what it leaves. -/
theorem Agrees.simplify (h : g.Agrees D base part rank) (hroot : root ∈ part)
    (ps : List Simplification) : (g.simplify root ps).1.Agrees D base part rank := by
  induction ps generalizing g with
  | nil => exact h
  | cons p ps ih =>
    have kept := Simplification.agrees_run p h hroot
    rw [Graph.simplify]
    rcases hp : p.run g root with ⟨g', count | e⟩
    · rw [hp] at kept
      exact kept
    · rw [hp] at kept
      exact ih kept

/-- What is reached from a root without cycles agrees with itself. -/
theorem IsAcyclicFrom.agrees (acyclic : g.IsAcyclicFrom root) (logical : g.IsLogicalFrom D root) :
    g.Agrees D g {r | g.Reaches root r} g.height := by
  have same : g.since {r | g.Reaches root r} g = {r | g.Reaches root r} := by
    ext r
    exact ⟨fun hr ↦ hr.resolve_right fun hr ↦ (hr.1.trans_lt hr.2).false, .inl⟩
  refine ⟨le_rfl, fun r ↦ height_of_size_le, ?_, fun _ _ ↦ rfl, ?_⟩
  · rw [same]
    exact acyclic.isRanked
  · rw [same]
    exact logical

/-- Simplifications, in any order and number, keep the value of the root and of every node below
it, however these are shared, also if the last of them fails. What is below the root afterwards
was there before or is new. -/
theorem simplify_value {g : Graph} {root : Ref} (acyclic : g.IsAcyclicFrom root)
    (logical : g.IsLogicalFrom D root) (ps : List Simplification) :
    (∀ r, g.Reaches root r → (g.simplify root ps).1.value D r = g.value D r) ∧
      ∀ r, (g.simplify root ps).1.Reaches root r → g.Reaches root r ∨ g.size ≤ r := by
  have agrees := (acyclic.agrees logical).simplify .refl ps
  refine ⟨agrees.value, fun r hr ↦ ?_⟩
  have mem : r ∈ g.since {r | g.Reaches root r} (g.simplify root ps).1 := by
    induction hr with
    | refl => exact .inl .refl
    | tail _ hc ih => exact (agrees.ranked.below _ ih _ hc).1
  exact mem.imp id And.left

end Graph

end Values

/-- Truth values alone, of which one is read in every column; casts change nothing. -/
def Denotation.truthValues : Denotation (Option Bool) (Option Bool) where
  node n e :=
    match n with
    | .literal (.boolean b) => some b
    | .column _ _ => e
    | .binary .and x y => conjunction3 (x e) (y e)
    | .binary .or x y => disjunction3 (x e) (y e)
    | .unary .negation x => (x e).map Bool.not
    | .cast x _ => x e
    | _ => none
  truth := id
  boolean _ _ := rfl
  and := by
    rintro x y e _ _ rfl rfl
    rfl
  or := by
    rintro x y e _ _ rfl rfl
    rfl
  not := by
    rintro x e _ rfl
    rfl
  cast _ _ := rfl

/-- A conjunction of a column, cast twice, or NOT TRUE with the same TRUE. -/
def Graph.sharedTrue : Graph :=
  ⟨#[.null, .column none "x", .cast 1 .boolean, .cast 2 .boolean, .literal (.boolean true),
    .unary .negation 4, .binary .or 3 5, .binary .and 6 4]⟩

/-- The conjunction comes to the cast, which cannot take its place at the root. -/
theorem Graph.simplify_value_of_sharedTrue :
    (sharedTrue.simplify 7 Simplification.standard).2 = .error (.kindMismatch .binary .cast) ∧
      (sharedTrue.simplify 7 Simplification.standard).1.get 7 = .binary .and 3 4 ∧
      ∀ r, sharedTrue.Reaches 7 r →
        (sharedTrue.simplify 7 Simplification.standard).1.value .truthValues r =
          sharedTrue.value .truthValues r := by
  have acyclic : sharedTrue.IsAcyclicFrom 7 := isAcyclicFrom_of_lt (by decide) (by decide)
  have logical : sharedTrue.IsLogicalFrom .truthValues 7 := fun _ _ _ _ _ ↦ ⟨_, rfl⟩
  exact ⟨rfl, rfl, (simplify_value acyclic logical Simplification.standard).1⟩

end SqlWright
