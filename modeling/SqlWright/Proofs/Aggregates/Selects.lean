import SqlWright.Proofs.Aggregates.Placement
import SqlWright.Proofs.Drafting.Derivation

/-!
# Aggregate functions of relations

An aggregation without columns to group by leaves no trace in the clauses of its select. An
operation that waits for groups to be a derived table takes no notice of it, and is merged into
the select whose columns are aggregates. Where no filter, join or further aggregation reads such
a relation, the aggregate functions of its statement stand where SQL allows them.
-/

namespace SqlWright

variable {d d' : Draft} {t : Tree} {c c' : Compiled} {q : Tree → Prop}

open Drafting Draft SqlWright.Tree

namespace Compiled

/-- A select without groups: it has no keys, and no aggregates among its columns. -/
structure IsUngrouped (c : Compiled) : Prop where
  groupBy : c.select.groupBy = []
  columns : c.PutsOut IsPlain

/-- Aggregate functions stand only where they may in the select and below it. It has no groups, or
its columns and its ordering are covered by the keys. -/
structure IsPlaced (c : Compiled) : Prop where
  source : ∀ t ∈ c.select.source, t.IsPlaced
  filter : ∀ t ∈ c.select.filter, t.IsPlain
  groupBy : ∀ t ∈ c.select.groupBy, t.IsPlain
  having : c.select.having = none
  limit : ∀ t ∈ c.select.limit, t.IsPlaced
  offset : ∀ t ∈ c.select.offset, t.IsPlaced
  columns : c.IsUngrouped ∨ c.PutsOut fun t ↦ t.IsPlaced ∧ t.CoveredBy c.select.groupBy

namespace IsPlaced

/-- The columns are placed in either case. -/
theorem putsOut (hc : c.IsPlaced) : c.PutsOut Tree.IsPlaced := by
  rcases hc.columns with h | h
  · exact ⟨fun t ht ↦ (h.columns.exprs t ht).placed, fun k hk ↦ (h.columns.orderBy k hk).placed⟩
  · exact ⟨fun t ht ↦ (h.exprs t ht).1, fun k hk ↦ (h.orderBy k hk).1⟩

theorem select (hc : c.IsPlaced) : c.select.IsPlaced := by
  have covered (grouped : c.select.groupBy ≠ [] ∨ ∃ t ∈ c.select.exprs, t.hasAggregate) :
      c.PutsOut fun t ↦ t.IsPlaced ∧ t.CoveredBy c.select.groupBy := by
    rcases hc.columns with h | h
    · exfalso
      rcases grouped with keys | ⟨t, ht, aggregate⟩
      · exact keys h.groupBy
      · rw [(h.columns.exprs t ht).bare] at aggregate
        cases aggregate
    · exact h
  exact ⟨fun t ht ↦ (hc.filter t ht).bare, fun t ht ↦ (hc.groupBy t ht).bare,
    fun grouped t ht ↦ ((covered grouped).exprs t ht).2,
    fun grouped k hk ↦ ((covered grouped).orderBy k hk).2⟩

theorem node (hc : c.IsPlaced) (h : Draft.node (.select c.select) d = .ok (t, d')) :
    t.IsPlaced := by
  obtain ⟨rfl, -⟩ := node_ok.1 h
  refine .mk hc.select fun u hu ↦ ?_
  change u ∈ c.select.children at hu
  simp only [Select.children, List.mem_append, Option.mem_toList, List.mem_map] at hu
  rcases hu with ((((((hu | hu) | hu) | hu) | hu) | ⟨k, hk, rfl⟩) | hu) | hu
  · exact hc.putsOut.exprs u hu
  · exact hc.source u hu
  · exact (hc.filter u hu).placed
  · exact (hc.groupBy u hu).placed
  · rw [hc.having] at hu
    cases hu
  · exact hc.putsOut.orderBy k hk
  · exact hc.limit u hu
  · exact hc.offset u hu

/-- An operation that draws its columns from the select and leaves the other clauses keeps it
placed. -/
theorem draws (hc : c.IsPlaced) (draws : c.Draws c')
    (source : c'.select.source = c.select.source) (filter : c'.select.filter = c.select.filter)
    (groupBy : c'.select.groupBy = c.select.groupBy) (having : c'.select.having = c.select.having)
    (limit : ∀ t ∈ c'.select.limit, t.IsPlaced) (offset : ∀ t ∈ c'.select.offset, t.IsPlaced) :
    c'.IsPlaced where
  source := source ▸ hc.source
  filter := filter ▸ hc.filter
  groupBy := groupBy ▸ hc.groupBy
  having := having.trans hc.having
  limit := limit
  offset := offset
  columns := by
    rw [groupBy]
    refine hc.columns.imp (fun h ↦ ⟨?_, h.columns.draws draws⟩) fun h ↦ h.draws draws
    exact groupBy.trans h.groupBy

end IsPlaced

theorem IsUngrouped.draws (hc : c.IsUngrouped) (draws : c.Draws c')
    (groupBy : c'.select.groupBy = c.select.groupBy) : c'.IsUngrouped :=
  ⟨groupBy.trans hc.groupBy, hc.columns.draws draws⟩

/-! ### Row sources -/

theorem isPlain_column {qualifier : Option String} {name : String}
    (h : t.node = .column qualifier name) : t.IsPlain := by
  have children : t.children = [] := by rw [Tree.children, h]; rfl
  refine ⟨.mk (by rw [h]; trivial) (by simp [children]), ?_⟩
  rw [hasAggregate_eq, Tree.kind, h, children]
  rfl

/-- A select of all columns of a row source has no groups. -/
theorem isPlaced_selectAll {source : Tree} {label : String} {header : Header} {s : Select Tree}
    (h : selectAll source label header d = .ok (s, d')) (hs : source.IsPlaced)
    (filter : Option Tree) (orderBy : List (SortKey Tree)) (header' : Header)
    (hf : ∀ t ∈ filter, t.IsPlain) (ho : ∀ k ∈ orderBy, k.expr ∈ s.exprs ∨ k.expr.IsPlain) :
    IsPlaced ⟨{ s with filter, orderBy }, header'⟩ ∧
      IsUngrouped ⟨{ s with filter, orderBy }, header'⟩ := by
  obtain ⟨exprs, rfl, he⟩ := selectAll_ok h
  have plain : ∀ t ∈ exprs, t.IsPlain := by
    intro t ht
    obtain ⟨column, -, hn⟩ := List.mem_map.1 (he ▸ List.mem_map_of_mem ht)
    exact isPlain_column hn.symm
  have all : ∀ t ∈ (exprs.map fun t ↦ (⟨t, none⟩ : OutputColumn Tree)).map (·.expr), t.IsPlain := by
    simpa using plain
  have ungrouped : IsUngrouped ⟨{
      columns := exprs.map (⟨·, none⟩), source := some source, filter, orderBy }, header'⟩ :=
    ⟨rfl, all, fun k hk ↦ (ho k hk).elim (all k.expr) id⟩
  refine ⟨⟨?_, hf, ?_, rfl, ?_, ?_, .inl ungrouped⟩, ungrouped⟩
  · simpa using hs
  · simp
  · simp
  · simp

/-- A select of all columns has no other clauses. -/
private theorem selectAll_bare {source : Tree} {label : String} {header : Header} {s : Select Tree}
    (h : selectAll source label header d = .ok (s, d')) :
    { s with filter := none, orderBy := [] } = s := by
  obtain ⟨exprs, rfl, -⟩ := selectAll_ok h
  rfl

/-- A derived table is placed if its query is. -/
theorem isPlaced_queryRef {query source : Tree} {label : String} (hq : query.IsPlaced)
    (hs : Draft.node (.queryRef query label) d = .ok (source, d')) : source.IsPlaced := by
  obtain ⟨rfl, -⟩ := node_ok.1 hs
  exact .mk trivial fun u hu ↦ List.mem_singleton.1 hu ▸ hq

theorem isPlaced_ofTable {t : Table} (h : ofTable t d = .ok (c, d')) :
    c.IsPlaced ∧ c.IsUngrouped := by
  obtain ⟨source, d₁, hs, hc, -⟩ := ofTable_ok h
  have placed : source.IsPlaced := by
    obtain ⟨rfl, -⟩ := node_ok.1 hs
    exact .mk trivial nofun
  have read := isPlaced_selectAll hc placed none [] c.header (by simp) (by simp)
  rw [selectAll_bare hc] at read
  exact read

theorem isPlaced_ofNative {sql : String} {header : Header}
    (h : ofNative sql header d = .ok (c, d')) : c.IsPlaced ∧ c.IsUngrouped := by
  obtain ⟨query, d₁, source, d₂, hq, hs, hc, -⟩ := ofNative_ok h
  have placed : query.IsPlaced := by
    obtain ⟨rfl, -⟩ := node_ok.1 hq
    exact .mk trivial nofun
  have read := isPlaced_selectAll hc (isPlaced_queryRef placed hs) none [] c.header (by simp)
    (by simp)
  rw [selectAll_bare hc] at read
  exact read

theorem IsPlaced.derived (hc : c.IsPlaced) : IsPlaced ⟨c.derived, c.header⟩ := by
  unfold Compiled.derived
  split
  · exact hc
  · refine hc.draws ⟨fun _ ht ↦ ht, nofun⟩ rfl rfl rfl rfl hc.limit hc.offset

/-- A wrapped select has no groups. -/
theorem IsPlaced.wrap (hc : c.IsPlaced) (h : c.wrap d = .ok (c', d')) :
    c'.IsPlaced ∧ c'.IsUngrouped := by
  obtain ⟨query, d₁, source, d₂, outer, hq, hs, ho, rfl⟩ := wrap_ok h
  have read := isPlaced_selectAll ho (isPlaced_queryRef (hc.derived.node hq) hs) none
    (outerOrder c.select outer.exprs) c.header (by simp) fun k hk ↦ .inl (mem_of_mem_outerOrder hk)
  obtain ⟨exprs, rfl, -⟩ := selectAll_ok ho
  exact read

/-! ### Operations -/

/-- The select is placed. If an operation that waits for groups is merged into it, it has none,
unless it computes a single group of all rows. -/
structure IsPlacedFor (total : Bool) (c : Compiled) : Prop where
  placed : c.IsPlaced
  ungrouped : total = false → mustWrap c.select .aggregate = false → c.IsUngrouped

variable {total : Bool} {op : Operation}

theorem IsPlacedFor.wrapFor (hc : c.IsPlacedFor total) (h : c.wrapFor op d = .ok (c', d')) :
    c'.IsPlacedFor total := by
  unfold Compiled.wrapFor at h
  split at h
  · obtain ⟨placed, ungrouped⟩ := hc.placed.wrap h
    exact ⟨placed, fun _ _ ↦ ungrouped⟩
  · obtain ⟨rfl, -⟩ := pure_ok.1 h
    exact hc

/-- A select that takes up an operation that waits for groups has none. -/
theorem IsPlacedFor.ungrouped_of_wrapFor (hc : c.IsPlacedFor total) (apart : total = false)
    (waits : ∀ s, mustWrap s op = false → mustWrap s .aggregate = false)
    (h : c.wrapFor op d = .ok (c', d')) : c'.IsPlaced ∧ c'.IsUngrouped := by
  unfold Compiled.wrapFor at h
  split at h
  · exact hc.placed.wrap h
  · next merges =>
    obtain ⟨rfl, -⟩ := pure_ok.1 h
    exact ⟨hc.placed, hc.ungrouped apart (waits _ (by simpa using merges))⟩

theorem waits_join {s : Select Tree} (h : mustWrap s .join = false) :
    mustWrap s .aggregate = false := by
  simp only [mustWrap, Bool.or_eq_false_iff] at h ⊢
  exact h.1

/-- An operation that draws its columns from a select and keeps its other clauses. -/
theorem IsPlacedFor.draws (hc : c.IsPlacedFor total) (draws : c.Draws c')
    (source : c'.select.source = c.select.source) (filter : c'.select.filter = c.select.filter)
    (groupBy : c'.select.groupBy = c.select.groupBy) (having : c'.select.having = c.select.having)
    (limit : c'.select.limit = c.select.limit) (offset : c'.select.offset = c.select.offset)
    (distinct : c'.select.distinct = c.select.distinct) : c'.IsPlacedFor total := by
  refine ⟨hc.placed.draws draws source filter groupBy having (limit ▸ hc.placed.limit)
    (offset ▸ hc.placed.offset), fun apart merges ↦ ?_⟩
  refine (hc.ungrouped apart ?_).draws draws groupBy
  rw [← merges, mustWrap, mustWrap, Select.isPaged, Select.isPaged, Select.isGrouped,
    Select.isGrouped, limit, offset, distinct, groupBy, having]

theorem filter_isPlaced {e : Scalar} (hc : c.IsPlaced) (ungrouped : c.IsUngrouped)
    (h : c.filter e d = .ok (c', d')) : c'.IsPlaced ∧ c'.IsUngrouped := by
  obtain ⟨condition, d₁, filter, hs, hf, rfl⟩ := filter_ok h
  have plain := isPlain_computation.rowwise.scalar ungrouped.columns.exprs (fun _ _ ↦ trivial) hs
  have filtered := isPlain_computation.rowwise.conjunction hc.filter plain hf
  exact ⟨{ hc with
    filter := by simpa using filtered
    columns := .inl ⟨ungrouped.groupBy, ungrouped.columns.exprs, ungrouped.columns.orderBy⟩ },
    ungrouped.groupBy, ungrouped.columns.exprs, ungrouped.columns.orderBy⟩

/-- Computed columns bring no groups. -/
theorem IsUngrouped.extend {columns : List Calculation} (hc : c.IsUngrouped)
    (h : c.extend columns d = .ok (c', d')) : c'.IsUngrouped where
  groupBy := by rw [select_extend h]; exact hc.groupBy
  columns := hc.columns.extend isPlain_computation.rowwise (fun _ _ _ _ ↦ trivial) h

theorem IsPlacedFor.extend {columns : List Calculation} (hc : c.IsPlacedFor total)
    (h : c.extend columns d = .ok (c', d')) : c'.IsPlacedFor total := by
  have select := select_extend h
  obtain ⟨placed, ungrouped⟩ := hc
  have computed : c'.IsUngrouped ∨ c'.PutsOut fun t ↦ t.IsPlaced ∧ t.CoveredBy c.select.groupBy :=
    placed.columns.imp (·.extend h)
      fun covered ↦ covered.extend (coveredBy_computation _).rowwise (fun _ _ _ _ ↦ trivial) h
  refine ⟨?_, fun apart merges ↦ ?_⟩
  · constructor
    · rw [select]; exact placed.source
    · rw [select]; exact placed.filter
    · rw [select]; exact placed.groupBy
    · rw [select]; exact placed.having
    · rw [select]; exact placed.limit
    · rw [select]; exact placed.offset
    · rw [show c'.select.groupBy = c.select.groupBy by rw [select]]
      exact computed
  · exact (ungrouped apart (by rw [select] at merges; exact merges)).extend h

/-- Joined selects without groups have none. -/
theorem join_isPlaced {left right : Compiled} {type : JoinType} {pairs : List (Nat × Nat)}
    {totalL totalR : Bool} (hl : left.IsPlacedFor totalL)
    (hr : right.IsPlacedFor totalR) (apartL : totalL = false) (apartR : totalR = false)
    (h : left.join right type pairs d = .ok (some c, d')) : c.IsPlaced ∧ c.IsUngrouped := by
  obtain ⟨l, d₁, r, d₂, leftSource, rightSource, condition, d₃, kind, on, filter, d₄, source,
    hwl, hwr, hls, hrs, hcond, hparts, hs, rfl⟩ := join_ok h
  obtain ⟨placedL, ungroupedL⟩ := hl.ungrouped_of_wrapFor apartL (fun _ ↦ waits_join) hwl
  obtain ⟨placedR, ungroupedR⟩ := hr.ungrouped_of_wrapFor apartR (fun _ ↦ waits_join) hwr
  have matched := isPlain_computation.rowwise.joinCondition ungroupedL.columns.exprs
    ungroupedR.columns.exprs (by simp) hcond
  obtain ⟨on_plain, filter_plain⟩ := isPlain_computation.rowwise.joinParts matched placedL.filter
    placedR.filter hparts
  have source_placed : source.IsPlaced := by
    obtain ⟨rfl, -⟩ := node_ok.1 hs
    refine .mk (fun t ht ↦ (on_plain t ht).bare) fun t ht ↦ ?_
    change t ∈ leftSource :: rightSource :: on.toList at ht
    rw [List.mem_cons, List.mem_cons, Option.mem_toList] at ht
    rcases ht with rfl | rfl | ht
    · exact placedL.source _ hls
    · exact placedR.source _ hrs
    · exact (on_plain t ht).placed
  have exprs : ∀ t ∈ (joinColumns l r).select.exprs, t.IsPlain := by
    intro t ht
    rcases mem_exprs_joinColumns ht with ht | ht
    · exact ungroupedL.columns.exprs t ht
    · exact ungroupedR.columns.exprs t ht
  have ungrouped : IsUngrouped ⟨{
      columns := (joinColumns l r).select.columns, source := some source, filter },
      (joinColumns l r).header.withOrder (joinOrder l.header r.header)⟩ := ⟨rfl, exprs, by simp⟩
  refine ⟨⟨?_, filter_plain, ?_, rfl, ?_, ?_, .inl ungrouped⟩, ungrouped⟩
  · simpa using source_placed
  · simp
  · simp
  · simp

/-- An aggregate of columns without aggregates covers its column. -/
private theorem covered_aggregateExpr {a : Aggregation} {header : Header} {exprs : List Tree}
    (he : ∀ t ∈ exprs, t.IsPlain) (keys : List Tree)
    (h : aggregateExpr a header exprs d = .ok (t, d')) : t.IsPlaced ∧ t.CoveredBy keys := by
  obtain ⟨operand, call, d₁, found, -, hcall, cast⟩ := aggregateExpr_ok h
  have plain : ∀ u ∈ operand, u.IsPlain := by
    obtain ⟨-, rfl⟩ | ⟨i, u, -, hu, rfl⟩ := found
    · simp
    · simpa using he u (List.mem_of_getElem? hu)
  have called : call.IsPlaced ∧ call.CoveredBy keys := by
    obtain ⟨rfl, -⟩ := node_ok.1 hcall
    refine ⟨.mk (fun u hu ↦ (plain u hu).bare) fun u hu ↦ ?_, .aggregate rfl⟩
    exact (plain u (Option.mem_toList.1 hu)).placed
  obtain ⟨type, -, ht⟩ | ⟨-, rfl, -⟩ := cast
  · exact (coveredBy_computation keys).rowwise.node rfl ht trivial
      (by simpa [Node.children] using called)
  · exact called

/-- The columns of an aggregation are its keys and aggregates of columns without any. -/
theorem aggregate_isPlaced {groupBy : List Nat} {aggregates : List Aggregation}
    (hc : c.IsPlaced) (ungrouped : c.IsUngrouped)
    (h : c.aggregate groupBy aggregates d = .ok (c', d')) : c'.IsPlacedFor groupBy.isEmpty := by
  obtain ⟨groups, all, hg, ha, rfl⟩ := aggregate_ok h
  have keys : ∀ t ∈ groups.select.exprs, t.IsPlain := by
    intro t ht
    rcases mem_exprs_groupColumns hg ht with none | ht
    · cases none
    · exact ungrouped.columns.exprs t ht
  have exprs : ∀ t ∈ all.select.exprs, t.IsPlaced ∧ t.CoveredBy groups.select.exprs := by
    intro t ht
    rcases mem_exprs_aggregateColumns ha ht with ht | ⟨a, -, d₁, d₂, ht⟩
    · exact ⟨(keys t ht).placed, .key ht⟩
    · exact covered_aggregateExpr ungrouped.columns.exprs _ ht
  refine ⟨{ hc with groupBy := keys, columns := .inr ⟨exprs, by simp⟩ }, fun apart merges ↦ ?_⟩
  -- a select with keys takes up no operation that waits for groups
  obtain ⟨gs, hgs, positions⟩ := exprs_groupColumns hg
  have nonempty : groups.select.exprs.isEmpty = false := by
    rw [hgs]
    cases positions with
    | nil => cases apart
    | cons _ _ => rfl
  simp [mustWrap, Select.isGrouped, nonempty] at merges

/-- A limit or an offset makes the select give a part of its rows. -/
theorem IsPlaced.forPage (hc : c.IsPlaced) (paged : c.select.isPaged) : c.IsPlacedFor total :=
  ⟨hc, fun _ merges ↦ by simp [mustWrap, paged] at merges⟩

theorem IsPlaced.ordered (hc : c.IsPlaced) (isWanted : Bool) : (c.ordered isWanted).IsPlaced := by
  have draws := draws_ordered c isWanted
  obtain ⟨orderBy, same⟩ := ordered_eq c isWanted
  rw [same] at draws ⊢
  exact hc.draws draws rfl rfl rfl rfl hc.limit hc.offset

theorem isPaged_ordered (isWanted : Bool) :
    (c.ordered isWanted).select.isPaged = c.select.isPaged := by
  unfold Compiled.ordered
  split <;> rfl

theorem IsPlaced.limit_isPlaced {count : Tree} {isOrdered : Bool} (hc : c.IsPlaced)
    (ht : count.IsPlaced) (h : c.limit count isOrdered d = .ok (c', d')) :
    c'.IsPlacedFor total := by
  obtain ⟨l, hl, rfl⟩ := limit_ok h
  have counted : l.IsPlaced := by
    split at hl
    · next existing he => exact isPlaced_computation.rowwise.minCount (hc.limit existing he) ht hl
    · cases hl
      exact ht
  have limited : IsPlaced { c with select := { c.select with limit := some l } } :=
    hc.draws ⟨fun _ hm ↦ hm, fun _ hk ↦ .inl hk⟩ rfl rfl rfl rfl (by simpa using counted) hc.offset
  exact (limited.ordered isOrdered).forPage (isPaged_ordered isOrdered)

theorem IsPlaced.offset_isPlaced {count : Tree} {isOrdered : Bool} (hc : c.IsPlaced)
    (ht : count.IsPlaced) (h : c.offset count isOrdered d = .ok (c', d')) :
    c'.IsPlacedFor total := by
  obtain ⟨l, hl, rfl⟩ := offset_ok h
  have counted : l.IsPlaced := by
    split at hl
    · next existing he => exact isPlaced_computation.rowwise.sumCounts (hc.offset existing he) ht hl
    · cases hl
      exact ht
  have skipped : IsPlaced { c with select := { c.select with offset := some l } } :=
    hc.draws ⟨fun _ hm ↦ hm, fun _ hk ↦ .inl hk⟩ rfl rfl rfl rfl hc.limit (by simpa using counted)
  refine (skipped.ordered isOrdered).forPage ((isPaged_ordered isOrdered).trans ?_)
  simp [Select.isPaged]

/-- The row number of a select with groups is covered as the columns are. -/
private theorem withNumbers_isPlaced {number : Tree} (hc : c.IsPlaced)
    (h : Draft.node (.rowNumber c.numberingOrder) d = .ok (number, d')) :
    IsPlaced ⟨c.withNumbers number, c.header⟩ := by
  have numbered {q : Tree → Prop} (hq : IsCompositional q) (puts : c.PutsOut q) :
      PutsOut q ⟨c.withNumbers number, c.header⟩ := by
    have number_q : q number := by
      obtain ⟨rfl, -⟩ := node_ok.1 h
      exact hq.over.rowNumber _ puts.numberingOrder
    refine ⟨fun t ht ↦ ?_, fun k hk ↦ ?_⟩
    · obtain ⟨column, hm, rfl⟩ := List.mem_map.1 ht
      rcases List.mem_append.1 hm with hm | hm
      · exact puts.exprs _ (List.mem_map_of_mem hm)
      · rw [List.mem_singleton.1 hm]
        exact number_q
    · simp only [withNumbers] at hk
      split at hk
      · exact puts.orderBy k hk
      · cases hk
  exact ⟨hc.source, hc.filter, hc.groupBy, hc.having, hc.limit, hc.offset, hc.columns.imp
    (fun plain ↦ ⟨plain.groupBy, numbered isPlain_computation plain.columns⟩)
    fun covered ↦ numbered (coveredBy_computation _) covered⟩

/-- Counts have no aggregate functions. -/
theorem isPlain_count {count : Scalar} (h : scalar [] count d = .ok (t, d')) : t.IsPlain :=
  isPlain_computation.rowwise.count (fun _ _ ↦ trivial) h

/-- A page by row numbers has no groups. -/
theorem IsPlaced.numberedPage {skip take : Option Scalar} (hc : c.IsPlaced)
    (h : c.numberedPage skip take d = .ok (c', d')) : c'.IsPlaced ∧ c'.IsUngrouped := by
  obtain ⟨number, d₁, query, d₂, source, d₃, outer, d₄, row, d₅, low, d₆, high, d₇, filter,
    hn, hq, hs, ho, hr, hlow, hhigh, hf, rfl⟩ := numberedPage_ok h
  have row_plain : row.IsPlain := by
    obtain ⟨rfl, -⟩ := node_ok.1 hr
    exact isPlain_column rfl
  have counted {count : Option Scalar} {t : Option Tree} {d d' : Draft}
      (h : count.mapM (scalar []) d = .ok (t, d')) : ∀ u ∈ t, u.IsPlain := by
    obtain ⟨-, rfl, -⟩ | ⟨e, u, -, rfl, hu⟩ := mapM_option_ok.1 h
    · simp
    · simpa using isPlain_count hu
  have filter_plain := isPlain_computation.rowwise.numberCondition row_plain (counted hlow)
    (counted hhigh) hf
  exact isPlaced_selectAll ho (isPlaced_queryRef ((withNumbers_isPlaced hc hn).node hq) hs) filter
    [SortKey.of row true] c.header filter_plain (by simpa [SortKey.of] using .inr row_plain)

end Compiled

namespace Relation

variable {r : Relation} {server : Server} {strategies : List Strategy}

/-- The relation is computed by a select that puts all rows into one group, without a clause that
says so. -/
def isTotal : Relation → Bool
  | aggregate _ groupBy _ => groupBy.isEmpty
  | project r _ | extend r _ | sort r _ | lock r _ => r.isTotal
  | table _ | native _ _ | filter _ _ | join _ _ _ _ | distinct _ | take _ _ | skip _ _
  | page _ _ _ => false

/-- No filter, join or aggregation reads a total. -/
def TotalsApart : Relation → Prop
  | table _ | native _ _ => True
  | filter r _ | aggregate r _ _ => r.isTotal = false ∧ r.TotalsApart
  | join a b _ _ => (a.isTotal = false ∧ b.isTotal = false) ∧ a.TotalsApart ∧ b.TotalsApart
  | project r _ | extend r _ | sort r _ | distinct r | take r _ | skip r _ | page r _ _
  | lock r _ => r.TotalsApart

open Compiled

theorem Drafted.isPlacedFor (h : r.Drafted server d c d') (apart : r.TotalsApart) :
    c.IsPlacedFor r.isTotal := by
  induction h with
  | later _ _ ih => exact ih apart
  | table h =>
    obtain ⟨placed, ungrouped⟩ := isPlaced_ofTable h
    exact ⟨placed, fun _ _ ↦ ungrouped⟩
  | native h =>
    obtain ⟨placed, ungrouped⟩ := isPlaced_ofNative h
    exact ⟨placed, fun _ _ ↦ ungrouped⟩
  | filter _ hw hf ih =>
    obtain ⟨placed, ungrouped⟩ := (ih apart.2).ungrouped_of_wrapFor apart.1 (fun _ h ↦ h) hw
    obtain ⟨placed, ungrouped⟩ := filter_isPlaced placed ungrouped hf
    exact ⟨placed, fun _ _ ↦ ungrouped⟩
  | project _ hw hp ih =>
    have draws := draws_project hp
    obtain ⟨chosen, -, rfl⟩ := project_ok hp
    exact ((ih apart).wrapFor hw).draws draws rfl rfl rfl rfl rfl rfl rfl
  | extend _ hw he ih => exact ((ih apart).wrapFor hw).extend he
  | join _ _ hj iha ihb =>
    obtain ⟨placed, ungrouped⟩ :=
      join_isPlaced (iha apart.2.1) (ihb apart.2.2) apart.1.1 apart.1.2 hj
    exact ⟨placed, fun _ _ ↦ ungrouped⟩
  | aggregate _ hw ha ih =>
    obtain ⟨placed, ungrouped⟩ := (ih apart.2).ungrouped_of_wrapFor apart.1 (fun _ h ↦ h) hw
    exact aggregate_isPlaced placed ungrouped ha
  | sort _ hw hs ih =>
    have draws := draws_sort hs
    obtain ⟨orderBy, -, rfl⟩ := sort_ok hs
    exact ((ih apart).wrapFor hw).draws draws rfl rfl rfl rfl rfl rfl rfl
  | @distinct _ _ _ _ _ w _ hw ih =>
    have placed := ((ih apart).wrapFor hw).placed
    refine ⟨placed.draws (draws_distinct w) rfl rfl rfl rfl placed.limit placed.offset,
      fun _ merges ↦ ?_⟩
    simp [mustWrap, Compiled.distinct] at merges
  | take _ _ ht hc ih => exact (ih apart).placed.limit_isPlaced (isPlain_count ht).placed hc
  | skip _ _ hw ht hc ih =>
    exact ((ih apart).wrapFor hw).placed.offset_isPlaced (isPlain_count ht).placed hc
  | @page r _ _ _ _ _ _ _ _ _ _ _ _ _ _ _ _ _ _ hw ht hskip hu hc ih =>
    have skipped : IsPlacedFor r.isTotal _ :=
      ((ih apart).wrapFor hw).placed.offset_isPlaced (isPlain_count ht).placed hskip
    exact skipped.placed.limit_isPlaced (isPlain_count hu).placed hc
  | numbered _ hp _ hn ih =>
    cases hp <;>
    · obtain ⟨placed, ungrouped⟩ := (ih apart).placed.numberedPage hn
      exact ⟨placed, fun _ _ ↦ ungrouped⟩
  | lock _ ih =>
    exact (ih apart).draws ⟨fun _ ht ↦ ht, fun _ hk ↦ .inl hk⟩ rfl rfl rfl rfl rfl rfl rfl

/-- In the statement of a relation and in every select nested in it, no filter, join condition,
key or operand of an aggregate function has an aggregate function, and columns stand inside of
keys and aggregates where there are groups, if no filter, join or aggregation of the relation
reads a total. -/
theorem statement_isPlaced {s : Statement} (apart : r.TotalsApart)
    (h : r.statement server strategies = .ok s) : s.tree.IsPlaced := by
  obtain ⟨c, d, hc, rfl⟩ := statement_ok h
  exact ((drafted_of_draft hc).isPlacedFor apart).placed.node (node_eq _ d)

/-- How many values stand in more than one row of a table. -/
def repeatedCount : Relation :=
  let t : Table := ⟨none, "t", [⟨"id", .int32, false⟩, ⟨"value", .int32, true⟩], [0]⟩
  aggregate (filter (aggregate (table t) [1] [⟨"times", .count, none, .int64⟩])
    (.binary .gt (.column 1) (.constant (.integer 1)))) [] [⟨"count", .count, none, .int64⟩]

/-- Groups become a derived table before they are filtered and counted. -/
theorem statement_isPlaced_of_repeatedCount : repeatedCount.TotalsApart ∧
    ∃ s, repeatedCount.statement (.capabilities .postgreSql ⟨9, 0⟩) Strategy.standard = .ok s ∧
      s.tree.IsPlaced := by
  have apart : repeatedCount.TotalsApart := ⟨rfl, rfl, rfl, trivial⟩
  obtain ⟨s, hs⟩ : ∃ s, repeatedCount.statement (.capabilities .postgreSql ⟨9, 0⟩)
      Strategy.standard = .ok s := ⟨_, rfl⟩
  exact ⟨apart, s, hs, statement_isPlaced apart hs⟩

/-- Number of rows of a table, given only if it is above one. -/
def countAboveOne : Relation :=
  let t : Table := ⟨none, "t", [⟨"id", .int32, false⟩, ⟨"value", .int32, true⟩], [0]⟩
  filter (aggregate (table t) [] [⟨"count", .count, none, .int64⟩])
    (.binary .gt (.column 0) (.constant (.integer 1)))

/-- The count becomes a part of the WHERE filter. -/
theorem not_isPlaced_of_filteredCount : ∃ s,
    countAboveOne.statement (.capabilities .postgreSql ⟨9, 0⟩) Strategy.standard = .ok s ∧
      ¬s.tree.IsPlaced := by
  refine ⟨_, rfl, ?_⟩
  rintro ⟨select, -⟩
  have filter := select.filter _ rfl
  cases filter

end Relation

end SqlWright
