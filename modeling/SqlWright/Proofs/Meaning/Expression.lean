import SqlWright.Proofs.Drafting.Results
import SqlWright.Proofs.Meaning.Relation
import SqlWright.Proofs.Meaning.Statement

/-!
# Meaning of drafted expressions

The tree that an expression becomes has, at every place, the value that the expression has
in the row of the values of its columns. What a tree reads of a place is stated by
`Meaning.IsLocal`: some aliases of the row, and nothing of the rows around it.
-/

namespace SqlWright

variable {V : Type} {I : Interpretation V} {db : Database V} {d d' : Draft}
  {columns : List Tree}

open Drafting Draft

namespace Meaning

variable {m : Meaning V} {labels labels' : List String}

/-- The value at a place is that at the point of the place. -/
def IsStable (m : Meaning V) : Prop :=
  ∀ p p' : Place V, p.toPoint = p'.toPoint → m.value p = m.value p'

/-- The value is that of a single row and depends only on the records under some aliases. -/
structure IsLocal (labels : List String) (m : Meaning V) : Prop where
  plain : m.aggregates = false
  value {p p' : Place V} :
    (∀ l ∈ labels, p.row.lookup l = p'.row.lookup l) → m.value p = m.value p'

/-- The expression reads the column of the name under an alias. -/
structure Reads (I : Interpretation V) (label : String) (m : Meaning V) (name : String) :
    Prop where
  plain : m.aggregates = false
  value (p : Place V) : m.value p = p.row.get I label name

theorem Reads.isLocal {label name : String} (h : m.Reads I label name) : m.IsLocal [label] where
  plain := h.plain
  value hp := by rw [h.value, h.value, Scope.get, Scope.get, hp label List.mem_cons_self]

theorem IsLocal.isStable (h : m.IsLocal labels) : m.IsStable := by
  intro p p' hp
  refine h.value fun l _ ↦ ?_
  rw [hp]

theorem IsLocal.mono (h : m.IsLocal labels) (hl : labels ⊆ labels') : m.IsLocal labels' where
  plain := h.plain
  value hp := h.value fun l hm ↦ hp l (hl hm)

/-- A place reads as the single row at it. -/
theorem IsLocal.value_row (h : m.IsLocal labels) (p : Place V) :
    m.value p = m.value (.ofRow p.row) :=
  h.value fun _ _ ↦ rfl

end Meaning

open Meaning

namespace Meaning

variable {m : Meaning V} {labels labels' : List String} {a b : Scope V}

private theorem lookup_eq_none (ha : a.map (·.1) ⊆ labels) (disjoint : labels.Disjoint labels')
    {l : String} (hl : l ∈ labels') : a.lookup l = none := by
  rw [List.lookup_eq_none_iff]
  intro p hp
  rw [bne_iff_ne]
  exact fun e ↦ disjoint (ha (List.mem_map_of_mem hp)) (e ▸ hl)

/-- On a joined row, what is local to the left side has the value it has on the left row, if the
sides share no alias. -/
theorem IsLocal.value_append_left (hm : m.IsLocal labels) (hb : b.map (·.1) ⊆ labels')
    (disjoint : labels.Disjoint labels') : m.value (.ofRow (a ++ b)) = m.value (.ofRow a) := by
  refine hm.value fun label hl ↦ ?_
  simp only [Place.ofRow, List.lookup_append, lookup_eq_none hb disjoint.symm hl, Option.or_none]

/-- On a joined row, what is local to the right side has the value it has on the right row. -/
theorem IsLocal.value_append_right (hm : m.IsLocal labels') (ha : a.map (·.1) ⊆ labels)
    (disjoint : labels.Disjoint labels') : m.value (.ofRow (a ++ b)) = m.value (.ofRow b) := by
  refine hm.value fun label hl ↦ ?_
  simp only [Place.ofRow, List.lookup_append, lookup_eq_none ha disjoint hl, Option.none_or]

end Meaning

variable [DecidableEq V]

namespace Tree

/-- The tree has the value of a function of the values of the columns, and no aggregate
function but those of the columns. -/
structure Computes (I : Interpretation V) (db : Database V) (columns : List Tree)
    (f : List V → V) (t : Tree) : Prop where
  value (p : Place V) :
    (t.meaning I db).value p = f (columns.map fun c ↦ (c.meaning I db).value p)
  plain : (∀ c ∈ columns, (c.meaning I db).aggregates = false) →
    (t.meaning I db).aggregates = false

namespace Computes

variable {f g : List V → V} {t : Tree} {labels : List String}

theorem isStable (h : t.Computes I db columns f)
    (hc : ∀ c ∈ columns, (c.meaning I db).IsStable) : (t.meaning I db).IsStable := by
  intro p p' hp
  rw [h.value, h.value, List.map_congr_left fun c hm ↦ hc c hm p p' hp]

theorem isLocal (h : t.Computes I db columns f)
    (hc : ∀ c ∈ columns, (c.meaning I db).IsLocal labels) : (t.meaning I db).IsLocal labels where
  plain := h.plain fun c hm ↦ (hc c hm).plain
  value hp := by rw [h.value, h.value, List.map_congr_left fun c hm ↦ (hc c hm).value hp]

end Computes

end Tree

namespace Draft

/-- A new node means what its content means. -/
theorem meaning_node {n : Node Tree} {t : Tree} (h : node n d = .ok (t, d')) :
    t.meaning I db = .ofNode I db (n.map (Tree.meaning I db)) := by
  obtain ⟨rfl, -⟩ := node_ok.1 h
  exact Tree.meaning_eq I db _

/-- An expression of nodes that compute something computes its value. -/
theorem computes_node {n : Node Tree} {t : Tree} {f : List V → V} {g : Place V → V}
    (h : node n d = .ok (t, d'))
    (hn : ofNode I db (n.map (Tree.meaning I db)) =
      ofExpression ((n.map (Tree.meaning I db)).children) g)
    (value : ∀ p, g p = f (columns.map fun c ↦ (c.meaning I db).value p))
    (plain : ∀ c ∈ n.children, (∀ c ∈ columns, (c.meaning I db).aggregates = false) →
      (c.meaning I db).aggregates = false) : t.Computes I db columns f where
  value p := by
    rw [meaning_node h, hn]
    exact value p
  plain hc := by
    rw [meaning_node h, hn, Node.children_map]
    simpa [ofExpression] using fun c hm ↦ plain c hm hc

theorem computes_binary_node {op : BinaryOp} {l r t : Tree} {f g : List V → V}
    (hl : l.Computes I db columns f) (hr : r.Computes I db columns g)
    (h : node (.binary op l r) d = .ok (t, d')) :
    t.Computes I db columns fun row ↦ I.binary op (f row) (g row) := by
  refine computes_node h rfl (fun p ↦ ?_) fun c hc plain ↦ ?_
  · rw [hl.value, hr.value]
  · rw [Node.children, List.mem_pair] at hc
    rcases hc with rfl | rfl
    · exact hl.plain plain
    · exact hr.plain plain

theorem computes_unary_node {op : UnaryOp} {u t : Tree} {f : List V → V}
    (hu : u.Computes I db columns f) (h : node (.unary op u) d = .ok (t, d')) :
    t.Computes I db columns fun row ↦ I.unary op (f row) := by
  refine computes_node h rfl (fun p ↦ ?_) fun c hc plain ↦ ?_
  · rw [hu.value]
  · rw [Node.children, List.mem_singleton] at hc
    exact hc ▸ hu.plain plain

private theorem computes_nullAware {op : BinaryOp} {value parameterNode t : Tree} {p : Parameter}
    {f : List V → V} (hv : value.Computes I db columns f)
    (hp : parameterNode.Computes I db columns fun _ ↦ I.parameter p.id)
    (h : nullAware op value parameterNode p d = .ok (t, d')) :
    t.Computes I db columns fun row ↦ Scalar.nullAwareValue I op (f row) p := by
  simp only [nullAware, bind_ok] at h
  obtain ⟨comparison, d₁, hc, test, d₂, ht, h⟩ := h
  have compared := computes_binary_node hv hp hc
  have tested := computes_unary_node hv ht
  refine computes_node h rfl (fun q ↦ ?_) fun c hm plain ↦ ?_
  · rw [Interpretation.isChosen, Scalar.nullAwareValue]
    split
    · exact tested.value q
    · exact compared.value q
  · rw [Node.children, List.mem_pair] at hm
    rcases hm with rfl | rfl
    · exact compared.plain plain
    · exact tested.plain plain

private theorem computes_binary {op : BinaryOp} {left right : Scalar} {l r t : Tree}
    (hl : l.Computes I db columns (left.value I ·)) (hr : r.Computes I db columns (right.value I ·))
    (h : binary op left right l r d = .ok (t, d')) :
    t.Computes I db columns (Scalar.value I · (.binary op left right)) := by
  simp only [Scalar.value, Scalar.binaryValue]
  unfold binary at h
  split at h
  · next hop =>
    simp only [if_pos hop]
    split at h
    · exact computes_nullAware hl hr h
    · next p hp =>
      have plain : ∀ p, right = .parameter p → False := hp
      cases right with
      | parameter p => exact (plain p rfl).elim
      | _ => exact computes_nullAware hr hl h
    · next hl' hr' =>
      cases right with
      | parameter p => exact (hr' p rfl).elim
      | _ =>
        cases left with
        | parameter p => exact (hl' p rfl).elim
        | _ => exact computes_binary_node hl hr h
  · next hop =>
    simp only [if_neg hop]
    exact computes_binary_node hl hr h

/-- The column at a position computes the value at it. -/
theorem computes_columnAt {i : Nat} {t : Tree} (h : columnAt columns i = .ok t) :
    t.Computes I db columns (I.at · i) where
  value p := by
    rw [Interpretation.at, List.getD_eq_getElem?_getD, List.getElem?_map, columnAt_ok.1 h]
    rfl
  plain hc := hc t (List.mem_of_getElem? (columnAt_ok.1 h))

mutual

/-- The tree of an expression has its value in the row of the values of the columns. -/
theorem computes_scalar {e : Scalar} {t : Tree} {d d' : Draft}
    (h : scalar columns e d = .ok (t, d')) : t.Computes I db columns (Scalar.value I · e) := by
  cases e with
  | column i =>
    exact computes_columnAt (lift_ok.1 h).1
  | constant _ | parameter _ | placeholder _ =>
    exact computes_node h rfl (fun _ ↦ rfl) (by simp [Node.children])
  | null =>
    obtain ⟨rfl, rfl⟩ := pure_ok.1 h
    exact ⟨fun p ↦ rfl, fun _ ↦ rfl⟩
  | typeIs i type =>
    simp only [scalar, bind_ok, lift_ok] at h
    obtain ⟨c, _, ⟨hi, rfl⟩, p, d₁, hp, h⟩ := h
    have placeholder : p.Computes I db columns fun _ ↦ I.placeholder (.typeId type) :=
      computes_node hp rfl (fun _ ↦ rfl) (by simp [Node.children])
    exact computes_binary_node (computes_columnAt hi) placeholder h
  | binary op left right =>
    simp only [scalar, bind_ok] at h
    obtain ⟨l, d₁, hl, r, d₂, hr, h⟩ := h
    exact computes_binary (computes_scalar hl) (computes_scalar hr) h
  | unary op operand =>
    simp only [scalar, bind_ok] at h
    obtain ⟨u, d₁, hu, h⟩ := h
    exact computes_unary_node (computes_scalar hu) h
  | function f args =>
    simp only [scalar, bind_ok] at h
    obtain ⟨us, d₁, hus, h⟩ := h
    obtain ⟨values, plain⟩ := computes_scalars hus
    refine computes_node h rfl (fun p ↦ ?_) plain
    rw [List.map_map, Scalar.value, ← values p]
    rfl
  | inList id exprs =>
    simp only [scalar, bind_ok] at h
    obtain ⟨us, d₁, hus, h⟩ := h
    obtain ⟨values, plain⟩ := computes_scalars hus
    cases us with
    | nil => exact (throw_ok h).elim
    | cons first others =>
      refine computes_node h rfl (fun p ↦ ?_) plain
      rw [Scalar.value, ← values p, ← List.map_cons, List.map_map]
      rfl

/-- The trees of expressions have their values in the row of the values of the columns. -/
theorem computes_scalars {es : List Scalar} {ts : List Tree} {d d' : Draft}
    (h : scalars columns es d = .ok (ts, d')) :
    (∀ p, ts.map (fun t ↦ (t.meaning I db).value p) =
      Scalar.values I (columns.map fun c ↦ (c.meaning I db).value p) es) ∧
    ∀ t ∈ ts, (∀ c ∈ columns, (c.meaning I db).aggregates = false) →
      (t.meaning I db).aggregates = false := by
  cases es with
  | nil =>
    obtain ⟨rfl, rfl⟩ := pure_ok.1 h
    exact ⟨fun _ ↦ rfl, by simp⟩
  | cons e es =>
    simp only [scalars, bind_ok, pure_ok] at h
    obtain ⟨t, d₁, ht, ts, d₂, hts, rfl, rfl⟩ := h
    have first : t.Computes I db columns (Scalar.value I · e) := computes_scalar ht
    obtain ⟨values, plain⟩ := computes_scalars hts
    refine ⟨fun p ↦ ?_, List.forall_mem_cons.2 ⟨first.plain, plain⟩⟩
    rw [List.map_cons, Scalar.values, first.value, values]

end

/-! ### Conditions -/

theorem value_binary_node {op : BinaryOp} {l r t : Tree}
    (h : node (.binary op l r) d = .ok (t, d')) (p : Place V) :
    (t.meaning I db).value p = I.binary op ((l.meaning I db).value p) ((r.meaning I db).value p) := by
  rw [meaning_node h]
  rfl

theorem isLocal_binary_node {op : BinaryOp} {l r t : Tree} {labels : List String}
    (hl : (l.meaning I db).IsLocal labels) (hr : (r.meaning I db).IsLocal labels)
    (h : node (.binary op l r) d = .ok (t, d')) : (t.meaning I db).IsLocal labels where
  plain := by
    rw [meaning_node h]
    simp [Node.map, ofNode, ofExpression, Node.children, hl.plain, hr.plain]
  value hp := by rw [value_binary_node h, value_binary_node h, hl.value hp, hr.value hp]

/-- A conjunction keeps the rows that both conditions keep. -/
theorem and_node_keeps {l r t : Tree} (h : node (.binary .and l r) d = .ok (t, d'))
    (row : Scope V) : keeps I (some (t.meaning I db)) row =
      (keeps I (some (l.meaning I db)) row && keeps I (some (r.meaning I db)) row) := by
  simp only [keeps, Option.all_some, value_binary_node h, Interpretation.holds_and]

/-- A condition more keeps the rows that met the condition before and meet it. -/
theorem conjunction_keeps {existing : Option Tree} {condition result : Tree}
    (h : conjunction existing condition d = .ok (result, d')) (row : Scope V) :
    keeps I (some (result.meaning I db)) row =
      (keeps I (existing.map (Tree.meaning I db)) row &&
        keeps I (some (condition.meaning I db)) row) := by
  cases existing with
  | some e => exact and_node_keeps h row
  | none =>
    obtain ⟨rfl, -⟩ := pure_ok.1 h
    exact (Bool.true_and _).symm

theorem isLocal_conjunction {existing : Option Tree} {condition result : Tree}
    {labels : List String} (he : ∀ t ∈ existing, (t.meaning I db).IsLocal labels)
    (hc : (condition.meaning I db).IsLocal labels)
    (h : conjunction existing condition d = .ok (result, d')) :
    (result.meaning I db).IsLocal labels := by
  cases existing with
  | some e => exact isLocal_binary_node (he e rfl) hc h
  | none =>
    obtain ⟨rfl, -⟩ := pure_ok.1 h
    exact hc

end Draft

end SqlWright
