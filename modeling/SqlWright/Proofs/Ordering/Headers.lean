import SqlWright.Proofs.Drafting.Derivation
import SqlWright.Proofs.Drafting.Outcome

/-!
# Orders of relations

A relation decides how many columns its select has and the order of its header, whatever server
and strategies make the select. Pages of a select without an ordering take the order of the header.
-/

namespace SqlWright

variable {d d' : Draft} {c c' : Compiled}

open Drafting Draft Compiled

/-- Order of the rows of a relation: the last sort, as far as its columns are still there, or the
key of a table. -/
def Relation.order : Relation → List SortItem
  | table t => t.key.map (⟨·, true⟩)
  | native _ header => header.order
  | project r columns => projectedOrder r.order columns
  | join a b _ _ => a.order ++ b.order.map fun item ↦ { item with column := item.column + a.width }
  | aggregate _ groupBy _ => (List.range groupBy.length).map (⟨·, true⟩)
  | sort _ order => order
  | filter r _ | extend r _ | distinct r | take r _ | skip r _ | page r _ _ | lock r _ => r.order

/-- The relation has an order by one of its columns. -/
def Relation.IsOrdered (r : Relation) : Prop := ∃ item ∈ r.order, item.column < r.width

namespace Compiled

/-- The select has the columns and the header has the order of the relation. -/
structure Heads (r : Relation) (c : Compiled) : Prop where
  width : c.HasWidth r.width
  order : c.header.order = r.order

/-! ### Operations that keep the order -/

theorem order_wrapFor {op : Operation} (h : c.wrapFor op d = .ok (c', d')) :
    c'.header.order = c.header.order := by
  unfold wrapFor at h
  split at h
  · obtain ⟨_, _, _, _, outer, -, -, -, rfl⟩ := wrap_ok h
    rfl
  · obtain ⟨rfl, -⟩ := pure_ok.1 h
    rfl

theorem order_extend {columns : List Calculation} (h : c.extend columns d = .ok (c', d')) :
    c'.header.order = c.header.order := by
  induction columns generalizing c d with
  | nil =>
    obtain ⟨rfl, -⟩ := pure_ok.1 h
    rfl
  | cons k columns ih =>
    obtain ⟨expr, d₁, -, h⟩ := bind_ok.1 h
    exact (ih h).trans rfl

theorem header_ordered (c : Compiled) (isWanted : Bool) :
    (c.ordered isWanted).header = c.header := by
  unfold ordered
  split <;> rfl

theorem header_limit {count : Tree} {isOrdered : Bool}
    (h : c.limit count isOrdered d = .ok (c', d')) : c'.header = c.header := by
  obtain ⟨l, -, rfl⟩ := limit_ok h
  exact header_ordered _ _

theorem header_offset {count : Tree} {isOrdered : Bool}
    (h : c.offset count isOrdered d = .ok (c', d')) : c'.header = c.header := by
  obtain ⟨l, -, rfl⟩ := offset_ok h
  exact header_ordered _ _

theorem header_numberedPage {skip take : Option Scalar}
    (h : c.numberedPage skip take d = .ok (c', d')) : c'.header = c.header := by
  obtain ⟨_, _, _, _, _, _, _, _, _, _, _, _, _, _, _, -, -, -, -, -, -, -, -, rfl⟩ :=
    numberedPage_ok h
  rfl

/-- A header's order in reach of the columns has sort keys. -/
theorem headerOrder_ne_nil {exprs : List Tree} {header : Header} {item : SortItem}
    (hi : item ∈ header.order) (hlt : item.column < exprs.length) :
    headerOrder exprs header ≠ [] := by
  have key : SortKey.of exprs[item.column] item.ascending ∈ headerOrder exprs header := by
    refine List.mem_filterMap.2 ⟨item, hi, ?_⟩
    rw [List.getElem?_eq_getElem hlt, Option.map_some]
  exact List.ne_nil_of_mem key

end Compiled

namespace Relation

variable {r : Relation} {server : Server}

private theorem Drafted.heads_page {p : Relation} {skip take : Option Scalar}
    (page : r.IsPage p skip take) (hc : c.Heads r) (h : c.numberedPage skip take d = .ok (c', d')) :
    c'.Heads p := by
  have width := ((decides_numberedPage hc.width skip take d).ok h).2
  have order := (congrArg Header.order (header_numberedPage h)).trans hc.order
  cases page <;> exact ⟨width, order⟩

/-- A drafted select has the columns and the header has the order of the relation. -/
theorem Drafted.heads (h : r.Drafted server d c d') : c.Heads r := by
  induction h with
  | later _ _ ih => exact ih
  | @table t _ _ _ h =>
    obtain ⟨_, _, -, -, header⟩ := ofTable_ok h
    exact ⟨((decides_ofTable t _).ok h).2, header ▸ rfl⟩
  | @native sql header _ _ _ h =>
    obtain ⟨_, _, _, _, -, -, -, same⟩ := ofNative_ok h
    exact ⟨((decides_ofNative sql header _).ok h).2, same ▸ rfl⟩
  | @filter _ e _ _ _ _ _ _ _ _ hw hf ih =>
    have wrapped := ((decides_wrapFor _ ih.width _).ok hw).2
    have width := ((decides_filter wrapped e _).ok hf).2
    obtain ⟨_, _, _, -, -, rfl⟩ := filter_ok hf
    exact ⟨width, (order_wrapFor hw).trans ih.order⟩
  | @project _ columns _ _ _ _ _ _ _ hw hp ih =>
    have wrapped := ((decides_wrapFor _ ih.width _).ok hw).2
    have width := ((settles_project wrapped columns).ok hp).2
    obtain ⟨_, -, rfl⟩ := project_ok hp
    exact ⟨width, congrArg (projectedOrder · columns) ((order_wrapFor hw).trans ih.order)⟩
  | @extend _ columns _ _ _ _ _ _ _ _ hw he ih =>
    have wrapped := ((decides_wrapFor _ ih.width _).ok hw).2
    exact ⟨((decides_extend columns wrapped _).ok he).2,
      (order_extend he).trans ((order_wrapFor hw).trans ih.order)⟩
  | @join a b type pairs _ _ _ _ l r _ _ _ hj iha ihb =>
    obtain ⟨_, hc, width⟩ := ((decides_join iha.width ihb.width type pairs _).ok hj).2
    cases hc
    refine ⟨width, ?_⟩
    obtain ⟨wl, _, wr, _, _, _, _, _, _, _, _, _, _, hwl, hwr, -, -, -, -, -, rfl⟩ := join_ok hj
    have left := ((decides_wrapFor _ iha.width _).ok hwl).2
    simp only [Header.withOrder, joinOrder, Relation.order, left.header,
      (order_wrapFor hwl).trans iha.order, (order_wrapFor hwr).trans ihb.order]
  | @aggregate _ groupBy aggregates _ _ _ _ _ _ _ _ hw ha ih =>
    have wrapped := ((decides_wrapFor _ ih.width _).ok hw).2
    have width := ((decides_aggregate wrapped groupBy aggregates _).ok ha).2
    obtain ⟨_, _, -, -, rfl⟩ := aggregate_ok ha
    exact ⟨width, rfl⟩
  | @sort _ order _ _ _ _ _ _ _ hw hs ih =>
    have wrapped := ((decides_wrapFor _ ih.width _).ok hw).2
    have width := ((settles_sort wrapped order).ok hs).2
    obtain ⟨_, -, rfl⟩ := sort_ok hs
    exact ⟨width, rfl⟩
  | distinct _ hw ih =>
    have wrapped := ((decides_wrapFor _ ih.width _).ok hw).2
    exact ⟨⟨wrapped.columns, wrapped.header, wrapped.source⟩, (order_wrapFor hw).trans ih.order⟩
  | take _ _ _ hl ih =>
    exact ⟨((decides_limit ih.width _ _ _).ok hl).2,
      (congrArg _ (header_limit hl)).trans ih.order⟩
  | skip _ _ hw _ ho ih =>
    have wrapped := ((decides_wrapFor _ ih.width _).ok hw).2
    exact ⟨((decides_offset wrapped _ _ _).ok ho).2,
      (congrArg _ (header_offset ho)).trans ((order_wrapFor hw).trans ih.order)⟩
  | page _ _ _ hw _ ho _ hl ih =>
    have wrapped := ((decides_wrapFor _ ih.width _).ok hw).2
    have skipped := ((decides_offset wrapped _ _ _).ok ho).2
    exact ⟨((decides_limit skipped _ _ _).ok hl).2, ((congrArg _ (header_limit hl)).trans
      (congrArg _ (header_offset ho))).trans ((order_wrapFor hw).trans ih.order)⟩
  | numbered _ page _ hn ih => exact heads_page page ih hn
  | lock _ ih => exact ⟨⟨ih.width.columns, ih.width.header, ih.width.source⟩, ih.order⟩

/-- The header of an ordered relation has sort keys among the columns of the select. -/
theorem Drafted.headerOrder_ne_nil (h : r.Drafted server d c d') (ordered : r.IsOrdered) :
    headerOrder c.select.exprs c.header ≠ [] := by
  obtain ⟨item, hi, hlt⟩ := ordered
  exact Compiled.headerOrder_ne_nil (h.heads.order ▸ hi) (h.heads.width.exprs ▸ hlt)

end Relation

end SqlWright
