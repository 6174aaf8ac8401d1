import SqlWright.Proofs.Drafting.Results
import SqlWright.Proofs.Relation.Parameters

/-!
# Where expressions come from

Expressions are computed from columns: a property that passes from the operands of a computation
to the computation is one of all that is drafted from expressions that have it. It may be one that
only some parameters have, as long as no others are spoken of. The output
columns and sort keys of a select are those of its source, columns of a row source or computed
from columns of the source. `Compiled.Draws` says that an operation takes all of them from the
select that it changes, and `Compiled.PutsOut` that all of them have a property.
-/

namespace SqlWright

variable {d d' : Draft} {t : Tree}

open Drafting Draft

/-- Whether the node makes a value from the values of its children. -/
def Node.isComputation {α : Type} : Node α → Bool
  | .null | .literal _ | .parameter _ | .placeholder _ | .binary _ _ _ | .unary _ _
  | .function _ _ | .cast _ _ | .case _ _ | .dynamicFilter _ _ _ | .variant _ _ _
  | .rowNumber _ => true
  | _ => false

/-- Whether the node makes a value of a row from values of the row. -/
def Node.isRowwise {α : Type} : Node α → Bool
  | .rowNumber _ => false
  | n => n.isComputation

/-- A node that is a parameter is one of some. -/
def Node.SpeaksOf {α : Type} (speaks : Parameter → Prop) : Node α → Prop
  | .parameter p => speaks p
  | _ => True

/-- A computation has the property if its operands do; of the parameters some have it. -/
def Tree.IsCompositionalOver (speaks : Parameter → Prop) (q : Tree → Prop) : Prop :=
  ∀ t : Tree, t.node.isComputation → t.node.SpeaksOf speaks → (∀ c ∈ t.children, q c) → q t

/-- A computation has the property if its operands do. -/
def Tree.IsCompositional (q : Tree → Prop) : Prop :=
  ∀ t : Tree, t.node.isComputation → (∀ c ∈ t.children, q c) → q t

/-- A computation on one row has the property if its operands do; of the parameters some have
it. -/
def Tree.IsRowwiseOver (speaks : Parameter → Prop) (q : Tree → Prop) : Prop :=
  ∀ t : Tree, t.node.isRowwise → t.node.SpeaksOf speaks → (∀ c ∈ t.children, q c) → q t

theorem Node.isComputation_of_isRowwise {α : Type} {n : Node α} (h : n.isRowwise) :
    n.isComputation := by
  cases n <;> first | exact h | cases h

theorem Tree.IsCompositionalOver.rowwise {speaks : Parameter → Prop} {q : Tree → Prop}
    (hq : IsCompositionalOver speaks q) : IsRowwiseOver speaks q :=
  fun t ht ↦ hq t (Node.isComputation_of_isRowwise ht)

/-- Whatever parameters are spoken of. -/
theorem Tree.IsCompositional.over {q : Tree → Prop} (hq : IsCompositional q) :
    IsCompositionalOver (fun _ ↦ True) q := fun t ht _ hc ↦ hq t ht hc

theorem Tree.IsCompositional.rowwise {q : Tree → Prop} (hq : IsCompositional q) :
    IsRowwiseOver (fun _ ↦ True) q := hq.over.rowwise

/-- Numbers of rows have a property of computations that their ordering has. -/
theorem Tree.IsCompositionalOver.rowNumber {speaks : Parameter → Prop} {q : Tree → Prop}
    {keys : List (SortKey Tree)} (hq : IsCompositionalOver speaks q) (i : Nat)
    (hk : ∀ k ∈ keys, q k.expr) : q (.mk i (.rowNumber keys)) :=
  hq _ rfl trivial (by simpa [Tree.children, Tree.node, Node.children] using hk)

namespace Tree.IsRowwiseOver

variable {speaks : Parameter → Prop} {q : Tree → Prop} {columns : List Tree}

theorem node {n : Node Tree} (hq : IsRowwiseOver speaks q) (hn : n.isRowwise)
    (h : Draft.node n d = .ok (t, d')) (hp : n.SpeaksOf speaks) (hc : ∀ c ∈ n.children, q c) :
    q t := by
  obtain ⟨rfl, -⟩ := node_ok.1 h
  exact hq _ hn hp hc

theorem binary_node {op : BinaryOp} {l r : Tree} (hq : IsRowwiseOver speaks q) (hl : q l) (hr : q r)
    (h : Draft.node (.binary op l r) d = .ok (t, d')) : q t :=
  hq.node rfl h trivial (by simp [Node.children, hl, hr])

theorem conjunction {existing : Option Tree} {condition : Tree} (hq : IsRowwiseOver speaks q)
    (he : ∀ e ∈ existing, q e) (hc : q condition)
    (h : Draft.conjunction existing condition d = .ok (t, d')) : q t := by
  unfold Draft.conjunction at h
  split at h
  · next e => exact hq.binary_node (he e rfl) hc h
  · obtain ⟨rfl, -⟩ := pure_ok.1 h
    exact hc

private theorem nullAware {op : BinaryOp} {value parameterNode : Tree} {p : Parameter}
    (hq : IsRowwiseOver speaks q) (hv : q value) (hp : q parameterNode)
    (h : Draft.nullAware op value parameterNode p d = .ok (t, d')) : q t := by
  simp only [Draft.nullAware, bind_ok] at h
  obtain ⟨comparison, d₁, hc, test, d₂, ht, h⟩ := h
  have compared := hq.binary_node hv hp hc
  have tested : q test := hq.node rfl ht trivial (by simpa [Node.children] using hv)
  exact hq.node rfl h trivial (by simp [Node.children, compared, tested])

private theorem binary {op : BinaryOp} {left right : Scalar} {l r : Tree}
    (hq : IsRowwiseOver speaks q) (hl : q l) (hr : q r)
    (h : Draft.binary op left right l r d = .ok (t, d')) : q t := by
  unfold Draft.binary at h
  split at h
  · split at h
    · exact hq.nullAware hl hr h
    · exact hq.nullAware hr hl h
    · exact hq.binary_node hl hr h
  · exact hq.binary_node hl hr h

mutual

/-- An expression over columns that have the property has it. -/
theorem scalar {e : Scalar} {t : Tree} {d d' : Draft} (hq : IsRowwiseOver speaks q)
    (hc : ∀ u ∈ columns, q u) (hp : ∀ p ∈ e.parameters, speaks p)
    (h : Draft.scalar columns e d = .ok (t, d')) : q t := by
  cases e with
  | column i => exact hc t (List.mem_of_getElem? (columnAt_ok.1 (lift_ok.1 h).1))
  | constant _ | placeholder _ => exact hq.node rfl h trivial (by simp [Node.children])
  | parameter p =>
    exact hq.node rfl h (hp p (by simp [Scalar.parameters])) (by simp [Node.children])
  | null =>
    obtain ⟨rfl, -⟩ := pure_ok.1 h
    exact hq _ rfl trivial (by simp [Tree.null, Tree.children, Tree.node, Node.children])
  | typeIs i type =>
    simp only [Draft.scalar, bind_ok, lift_ok] at h
    obtain ⟨c, _, ⟨hi, rfl⟩, p, d₁, hp, h⟩ := h
    have placeholder : q p := hq.node rfl hp trivial (by simp [Node.children])
    exact hq.binary_node (hc c (List.mem_of_getElem? (columnAt_ok.1 hi))) placeholder h
  | binary op left right =>
    simp only [Draft.scalar, bind_ok] at h
    obtain ⟨l, d₁, hl, r, d₂, hr, h⟩ := h
    simp only [Scalar.parameters, List.mem_append] at hp
    exact hq.binary (hq.scalar hc (fun p hm ↦ hp p (.inl hm)) hl)
      (hq.scalar hc (fun p hm ↦ hp p (.inr hm)) hr) h
  | unary op operand =>
    simp only [Draft.scalar, bind_ok] at h
    obtain ⟨u, d₁, hu, h⟩ := h
    rw [Scalar.parameters] at hp
    exact hq.node rfl h trivial (by simpa [Node.children] using hq.scalar hc hp hu)
  | function f args =>
    simp only [Draft.scalar, bind_ok] at h
    obtain ⟨us, d₁, hus, h⟩ := h
    rw [Scalar.parameters] at hp
    exact hq.node rfl h trivial (hq.scalars hc hp hus)
  | inList id exprs =>
    simp only [Draft.scalar, bind_ok] at h
    obtain ⟨us, d₁, hus, h⟩ := h
    rw [Scalar.parameters] at hp
    have tested := hq.scalars hc hp hus
    cases us with
    | nil => exact (throw_ok h).elim
    | cons first others => exact hq.node rfl h trivial (by simpa [Node.children] using tested)

theorem scalars {es : List Scalar} {ts : List Tree} {d d' : Draft} (hq : IsRowwiseOver speaks q)
    (hc : ∀ u ∈ columns, q u) (hp : ∀ p ∈ Scalar.allParameters es, speaks p)
    (h : Draft.scalars columns es d = .ok (ts, d')) : ∀ t ∈ ts, q t := by
  cases es with
  | nil =>
    obtain ⟨rfl, -⟩ := pure_ok.1 h
    simp
  | cons e es =>
    simp only [Draft.scalars, bind_ok, pure_ok] at h
    obtain ⟨t, d₁, ht, ts, d₂, hts, rfl, -⟩ := h
    simp only [Scalar.allParameters, List.mem_append] at hp
    exact List.forall_mem_cons.2 ⟨hq.scalar hc (fun p hm ↦ hp p (.inl hm)) ht,
      hq.scalars hc (fun p hm ↦ hp p (.inr hm)) hts⟩

end

/-- Counts use no columns. -/
theorem count {e : Scalar} (hq : IsRowwiseOver speaks q) (hp : ∀ p ∈ e.parameters, speaks p)
    (h : Draft.scalar [] e d = .ok (t, d')) : q t := hq.scalar (by simp) hp h

theorem minCount {a b : Tree} (hq : IsRowwiseOver speaks q) (ha : q a) (hb : q b)
    (h : Compiled.minCount a b d = .ok (t, d')) : q t := by
  obtain ⟨x, y, -, -, h⟩ | ⟨less, d₁, hl, h⟩ := Compiled.minCount_ok h
  · exact hq.node rfl h trivial (by simp [Node.children])
  · have compared := hq.binary_node ha hb hl
    exact hq.node rfl h trivial (by simp [Node.children, compared, ha, hb])

theorem sumCounts {a b : Tree} (hq : IsRowwiseOver speaks q) (ha : q a) (hb : q b)
    (h : Compiled.sumCounts a b d = .ok (t, d')) : q t := by
  obtain ⟨x, y, -, -, h⟩ | h := Compiled.sumCounts_ok h
  · exact hq.node rfl h trivial (by simp [Node.children])
  · exact hq.binary_node ha hb h

theorem numberCondition {row : Tree} {skip take result : Option Tree} (hq : IsRowwiseOver speaks q)
    (hr : q row) (hs : ∀ t ∈ skip, q t) (ht : ∀ t ∈ take, q t)
    (h : Compiled.numberCondition row skip take d = .ok (result, d')) : ∀ t ∈ result, q t := by
  obtain ⟨lower, d₁, upper, d₂, hl, hu, both⟩ := Compiled.numberCondition_ok h
  have above : ∀ t ∈ lower, q t := by
    obtain ⟨-, rfl, -⟩ | ⟨s, l, rfl, rfl, compared⟩ := mapM_option_ok.1 hl
    · simp
    · simpa using hq.binary_node hr (hs s rfl) compared
  have below : ∀ t ∈ upper, q t := by
    obtain ⟨-, rfl, -⟩ | ⟨t, last, d₃, u, rfl, rfl, hlast, hu⟩ := hu
    · simp
    · have bound : q last := by
        cases skip with
        | none => exact hlast.1 ▸ ht t rfl
        | some s => exact hq.sumCounts (hs s rfl) (ht t rfl) hlast
      simpa using hq.binary_node hr bound hu
  obtain ⟨l, u, t, rfl, rfl, rfl, joined⟩ | ⟨-, rfl, -⟩ := both
  · simpa using hq.binary_node (above l rfl) (below u rfl) joined
  · cases lower with
    | none => exact below
    | some l => exact above

theorem joinCondition {left right : List Tree} {condition result : Option Tree}
    {pairs : List (Nat × Nat)} (hq : IsRowwiseOver speaks q) (hl : ∀ t ∈ left, q t)
    (hr : ∀ t ∈ right, q t) (hc : ∀ t ∈ condition, q t)
    (h : Compiled.joinCondition left right condition pairs d = .ok (result, d')) :
    ∀ t ∈ result, q t := by
  induction pairs generalizing condition d with
  | nil =>
    obtain ⟨rfl, -⟩ := pure_ok.1 h
    exact hc
  | cons p pairs ih =>
    obtain ⟨a, b, equality, d₁, joined, d₂, ha, hb, he, hj, h⟩ := Compiled.joinCondition_cons_ok h
    have equal :=
      hq.binary_node (hl a (List.mem_of_getElem? ha)) (hr b (List.mem_of_getElem? hb)) he
    exact ih (by simpa using hq.conjunction hc equal hj) h

theorem joinParts {type : JoinType} {condition left right on filter : Option Tree}
    {kind : JoinKind} (hq : IsRowwiseOver speaks q) (hc : ∀ t ∈ condition, q t)
    (hl : ∀ t ∈ left, q t) (hr : ∀ t ∈ right, q t)
    (h : Compiled.joinParts type condition left right d = .ok ((kind, on, filter), d')) :
    (∀ t ∈ on, q t) ∧ ∀ t ∈ filter, q t := by
  cases type with
  | inner =>
    obtain ⟨-, rfl, ⟨x, y, t, rfl, rfl, rfl, ht⟩ | ⟨-, rfl, -⟩⟩ := Compiled.joinParts_inner_ok h
    · exact ⟨hc, by simpa using hq.binary_node (hl x rfl) (hr y rfl) ht⟩
    · cases left with
      | none => exact ⟨hc, hr⟩
      | some x => exact ⟨hc, hl⟩
  | leftOuter =>
    obtain ⟨-, rfl, c, d₁, hcondition, t, rfl, hright⟩ := Compiled.joinParts_leftOuter_ok h
    have matched : q c := by
      obtain ⟨rfl, -⟩ | ⟨-, a, d₂, b, d₃, ha, hb, he⟩ := hcondition
      · exact hc c rfl
      · have one {t : Tree} {d d' : Draft} (h : integer 1 d = .ok (t, d')) : q t :=
          hq.node rfl h trivial (by simp [Node.children])
        exact hq.binary_node (one ha) (one hb) he
    refine ⟨?_, hl⟩
    obtain ⟨-, rfl, -⟩ | ⟨f, rfl, ht⟩ := hright
    · simpa using matched
    · simpa using hq.binary_node matched (hr f rfl) ht

end Tree.IsRowwiseOver

namespace Compiled

variable {c c' : Compiled} {k : SortKey Tree}

/-- The second select puts out and sorts by what the first one does. -/
structure Draws (c c' : Compiled) : Prop where
  exprs : ∀ t ∈ c'.select.exprs, t ∈ c.select.exprs
  orderBy : ∀ k ∈ c'.select.orderBy, k ∈ c.select.orderBy ∨ k.expr ∈ c.select.exprs

/-! ### Orderings -/

theorem mem_of_mem_outerOrder {inner : Select Tree} {outer : List Tree}
    (h : k ∈ outerOrder inner outer) : k.expr ∈ outer := by
  simp only [outerOrder, List.mem_filterMap, Option.bind_eq_bind, Option.bind_eq_some_iff,
    Option.pure_def, Option.some.injEq] at h
  obtain ⟨_, -, i, -, expr, he, rfl⟩ := h
  exact List.mem_of_getElem? he

theorem mem_of_mem_headerOrder {exprs : List Tree} {header : Header}
    (h : k ∈ headerOrder exprs header) : k.expr ∈ exprs := by
  obtain ⟨item, -, hi⟩ := List.mem_filterMap.1 h
  obtain ⟨t, ht, rfl⟩ := Option.map_eq_some_iff.1 hi
  exact List.mem_of_getElem? ht

/-- Rows are numbered in the ordering of the select, else in that of its header, else by its first
column. -/
theorem numberingOrder_cases (c : Compiled) :
    c.select.orderBy ≠ [] ∧ c.numberingOrder = c.select.orderBy ∨
      c.select.orderBy = [] ∧ c.numberingOrder = headerOrder c.select.exprs c.header ∨
      c.select.orderBy = [] ∧ headerOrder c.select.exprs c.header = [] ∧
        c.numberingOrder = (c.select.exprs.take 1).map (SortKey.of · true) := by
  unfold numberingOrder
  by_cases unordered : c.select.orderBy = []
  · rw [if_neg (by simp [unordered])]
    by_cases unsorted : headerOrder c.select.exprs c.header = []
    · exact .inr (.inr ⟨unordered, unsorted, if_neg (by simp [unsorted])⟩)
    · exact .inr (.inl ⟨unordered, if_pos (by simp [unsorted])⟩)
  · exact .inl ⟨unordered, if_pos (by simpa using unordered)⟩

/-- Rows are numbered in the ordering of the select, or by its columns if it has none. -/
theorem numberingOrder_eq (c : Compiled) :
    c.select.orderBy ≠ [] ∧ c.numberingOrder = c.select.orderBy ∨
      c.select.orderBy = [] ∧ ∀ k ∈ c.numberingOrder, k.expr ∈ c.select.exprs := by
  refine c.numberingOrder_cases.imp_right fun unordered ↦ ?_
  obtain ⟨none, same⟩ | ⟨none, -, same⟩ := unordered <;> refine ⟨none, fun k hk ↦ ?_⟩
  · exact mem_of_mem_headerOrder (same ▸ hk)
  · rw [same] at hk
    obtain ⟨t, ht, rfl⟩ := List.mem_map.1 hk
    exact List.mem_of_mem_take ht

/-! ### Operations -/

/-- A projection puts out the expressions at its positions. -/
theorem exprs_project {columns : List Nat} (h : c.project columns = .ok c') :
    List.Forall₂ (fun i t ↦ c.select.exprs[i]? = some t) columns c'.select.exprs := by
  obtain ⟨chosen, hp, rfl⟩ := project_ok h
  simp only [Select.exprs, List.map_map, List.forall₂_map_right_iff]
  exact hp.imp fun i p hi ↦ by simp [hi.1]

theorem draws_project {columns : List Nat} (h : c.project columns = .ok c') : c.Draws c' := by
  refine ⟨fun t ht ↦ ?_, fun k hk ↦ .inl ?_⟩
  · obtain ⟨i, -, hi⟩ := exists_of_mem_forall₂ (exprs_project h) ht
    exact List.mem_of_getElem? hi
  · obtain ⟨chosen, -, rfl⟩ := project_ok h
    exact hk

theorem draws_sort {order : List SortItem} (h : c.sort order = .ok c') : c.Draws c' := by
  obtain ⟨orderBy, hk, rfl⟩ := sort_ok h
  refine ⟨fun t ht ↦ ht, fun k hmem ↦ .inr ?_⟩
  obtain ⟨item, -, t, ht, rfl⟩ := exists_of_mem_forall₂ hk hmem
  exact List.mem_of_getElem? ht

theorem draws_distinct (c : Compiled) : c.Draws c.distinct :=
  ⟨fun _ ht ↦ ht, fun _ hk ↦ .inl (List.mem_filter.1 hk).1⟩

/-- A select that is ordered differs from what it was at most in its sort keys. -/
theorem ordered_eq (c : Compiled) (isWanted : Bool) :
    ∃ orderBy, c.ordered isWanted = ⟨{ c.select with orderBy }, c.header⟩ := by
  unfold ordered
  split
  · exact ⟨_, rfl⟩
  · exact ⟨c.select.orderBy, rfl⟩

theorem draws_ordered (c : Compiled) (isWanted : Bool) : c.Draws (c.ordered isWanted) := by
  unfold ordered
  split
  · exact ⟨fun _ ht ↦ ht, fun k hk ↦ .inr (mem_of_mem_headerOrder hk)⟩
  · exact ⟨fun _ ht ↦ ht, fun k hk ↦ .inl hk⟩

theorem draws_limit {count : Tree} {isOrdered : Bool}
    (h : c.limit count isOrdered d = .ok (c', d')) : c.Draws c' := by
  obtain ⟨l, -, rfl⟩ := limit_ok h
  have draws := draws_ordered { c with select := { c.select with limit := some l } } isOrdered
  exact ⟨draws.exprs, draws.orderBy⟩

theorem draws_offset {count : Tree} {isOrdered : Bool}
    (h : c.offset count isOrdered d = .ok (c', d')) : c.Draws c' := by
  obtain ⟨l, -, rfl⟩ := offset_ok h
  have draws := draws_ordered { c with select := { c.select with offset := some l } } isOrdered
  exact ⟨draws.exprs, draws.orderBy⟩

theorem expr_outputColumn (t : Tree) (name : String) : (outputColumn t name).expr = t := by
  unfold outputColumn
  split <;> rfl

/-- Expressions of a select with one more column. -/
theorem exprs_appendColumn (t : Tree) (info : HeaderColumn) :
    (c.appendColumn t info).select.exprs = c.select.exprs ++ [t] := by
  rw [Select.exprs, appendColumn, List.map_append, List.map_singleton, expr_outputColumn]
  rfl

/-- Expressions of joined columns: those of the left side, then those of the right. -/
theorem exprs_joinColumns {left right : Compiled}
    (hr : right.select.columns.length ≤ right.header.columns.length) :
    (joinColumns left right).select.exprs = left.select.exprs ++ right.select.exprs := by
  rw [joinColumns_adds (f := fun c ↦ c.select.exprs) fun _ ↦ exprs_appendColumn]
  congr 1
  rw [Select.exprs, ← List.map_fst_zip hr, List.map_map, List.map_fst_zip hr]
  rfl

/-- Joined columns are those of the sides. -/
theorem mem_exprs_joinColumns {left right : Compiled}
    (h : t ∈ (joinColumns left right).select.exprs) :
    t ∈ left.select.exprs ∨ t ∈ right.select.exprs := by
  rw [joinColumns_adds (f := fun c ↦ c.select.exprs) fun _ ↦ exprs_appendColumn,
    List.mem_append] at h
  refine h.imp_right fun hr ↦ ?_
  obtain ⟨p, hp, rfl⟩ := List.mem_map.1 hr
  exact List.mem_map_of_mem (List.of_mem_zip hp).1

/-- Columns to group by are added to those there are. -/
theorem exprs_groupColumns {groups : Compiled} {groupBy : List Nat}
    (h : c.groupColumns groups groupBy = .ok c') :
    ∃ gs, c'.select.exprs = groups.select.exprs ++ gs ∧
      List.Forall₂ (fun i t ↦ c.select.exprs[i]? = some t) groupBy gs := by
  induction groupBy generalizing groups with
  | nil =>
    cases h
    exact ⟨[], (List.append_nil _).symm, .nil⟩
  | cons i groupBy ih =>
    obtain ⟨expr, info, he, -, h⟩ := groupColumns_cons_ok h
    obtain ⟨gs, hgs, positions⟩ := ih h
    refine ⟨expr :: gs, ?_, .cons he positions⟩
    rw [hgs, exprs_appendColumn, List.append_assoc]
    rfl

/-- Grouped columns are columns of the source. -/
theorem mem_exprs_groupColumns {groups : Compiled} {groupBy : List Nat}
    (h : c.groupColumns groups groupBy = .ok c') (ht : t ∈ c'.select.exprs) :
    t ∈ groups.select.exprs ∨ t ∈ c.select.exprs := by
  obtain ⟨gs, hgs, positions⟩ := exprs_groupColumns h
  rw [hgs, List.mem_append] at ht
  refine ht.imp_right fun hm ↦ ?_
  obtain ⟨i, -, hi⟩ := exists_of_mem_forall₂ positions hm
  exact List.mem_of_getElem? hi

/-- Aggregates are added to the columns there are. -/
theorem exprs_aggregateColumns {groups : Compiled} {aggregates : List Aggregation}
    (h : c.aggregateColumns groups aggregates d = .ok (c', d')) :
    ∃ calls, c'.select.exprs = groups.select.exprs ++ calls ∧
      List.Forall₂ (fun a t ↦ ∃ d₁ d₂, aggregateExpr a c.header c.select.exprs d₁ = .ok (t, d₂))
        aggregates calls := by
  induction aggregates generalizing groups d with
  | nil =>
    obtain ⟨rfl, -⟩ := pure_ok.1 h
    exact ⟨[], (List.append_nil _).symm, .nil⟩
  | cons a aggregates ih =>
    simp only [aggregateColumns, bind_ok] at h
    obtain ⟨expr, d₁, he, h⟩ := h
    obtain ⟨calls, same, computed⟩ := ih h
    refine ⟨expr :: calls, ?_, .cons ⟨d, d₁, he⟩ computed⟩
    rw [same, exprs_appendColumn, List.append_assoc]
    rfl

/-- The columns of an aggregation are the grouped ones and the aggregates. -/
theorem mem_exprs_aggregateColumns {groups : Compiled} {aggregates : List Aggregation}
    (h : c.aggregateColumns groups aggregates d = .ok (c', d')) (ht : t ∈ c'.select.exprs) :
    t ∈ groups.select.exprs ∨ ∃ a ∈ aggregates, ∃ d₁ d₂,
      aggregateExpr a c.header c.select.exprs d₁ = .ok (t, d₂) := by
  obtain ⟨calls, same, computed⟩ := exprs_aggregateColumns h
  rw [same, List.mem_append] at ht
  exact ht.imp_right (exists_of_mem_forall₂ computed)

/-- Computed columns are the only change. -/
theorem select_extend {columns : List Calculation} (h : c.extend columns d = .ok (c', d')) :
    c'.select = { c.select with columns := c'.select.columns } := by
  induction columns generalizing c d with
  | nil =>
    obtain ⟨rfl, -⟩ := pure_ok.1 h
    rfl
  | cons k columns ih =>
    simp only [Compiled.extend, bind_ok] at h
    obtain ⟨expr, d₁, -, h⟩ := h
    have extended := ih h
    exact extended

/-! ### Properties of what is put out -/

variable {q : Tree → Prop}

/-- The output columns and the sort keys have the property. -/
structure PutsOut (q : Tree → Prop) (c : Compiled) : Prop where
  exprs : ∀ t ∈ c.select.exprs, q t
  orderBy : ∀ k ∈ c.select.orderBy, q k.expr

theorem PutsOut.draws (h : c.PutsOut q) (draws : c.Draws c') : c'.PutsOut q where
  exprs t ht := h.exprs t (draws.exprs t ht)
  orderBy k hk := (draws.orderBy k hk).elim (h.orderBy k) (h.exprs k.expr)

theorem PutsOut.numberingOrder (h : c.PutsOut q) : ∀ k ∈ c.numberingOrder, q k.expr := by
  intro k hk
  rcases c.numberingOrder_eq with ⟨-, same⟩ | ⟨-, drawn⟩
  · exact h.orderBy k (same ▸ hk)
  · exact h.exprs k.expr (drawn k hk)

theorem PutsOut.appendColumn {info : HeaderColumn} (h : c.PutsOut q) (ht : q t) :
    (c.appendColumn t info).PutsOut q where
  exprs u hu := by
    rw [exprs_appendColumn, List.mem_append, List.mem_singleton] at hu
    rcases hu with hu | rfl
    · exact h.exprs u hu
    · exact ht
  orderBy := h.orderBy

theorem PutsOut.extend {speaks : Parameter → Prop} {columns : List Calculation}
    (hq : Tree.IsRowwiseOver speaks q) (h : c.PutsOut q)
    (hp : ∀ k ∈ columns, ∀ p ∈ k.expr.parameters, speaks p)
    (he : c.extend columns d = .ok (c', d')) : c'.PutsOut q := by
  induction columns generalizing c d with
  | nil =>
    obtain ⟨rfl, -⟩ := pure_ok.1 he
    exact h
  | cons k columns ih =>
    simp only [Compiled.extend, bind_ok] at he
    obtain ⟨expr, d₁, hs, he⟩ := he
    rw [List.forall_mem_cons] at hp
    exact ih (h.appendColumn (hq.scalar h.exprs hp.1 hs)) hp.2 he

end Compiled

end SqlWright
