import SqlWright.Proofs.Drafting.Derivation
import SqlWright.Proofs.Drafting.Outcome
import SqlWright.Proofs.Scopes.Columns

/-!
# Scopes of statements

A select is drafted over the aliases of its row source: its expressions are columns of it and what
is computed from them. An operation that wraps a select starts anew with the columns of the derived
table, one that joins two selects may use those of both sides, and each alias is given once. So the
aliases of a statement differ, and columns are read where their aliases are introduced.
-/

namespace SqlWright

variable {d d' d₁ d₂ : Draft} {t : Tree} {c c' : Compiled}

open Drafting Draft Compiled SqlWright.Tree

/-- The tree is scoped, and the aliases of its row sources differ and were given while a draft
grew to another. -/
structure Tree.IsScopedFrom (d d' : Draft) (t : Tree) : Prop where
  inScope : t.Everywhere Node.IsScoped
  nodup : t.sourceLabels.Nodup
  given : Given d d' t.sourceLabels

namespace Tree.IsScopedFrom

theorem mono (h : t.IsScopedFrom d d₁) (hd : d'.aliases ≤ d.aliases)
    (hd' : d₁.aliases ≤ d₂.aliases) : t.IsScopedFrom d' d₂ :=
  ⟨h.inScope, h.nodup, h.given.mono hd hd'⟩

/-- A row source with an alias that was given last, whose children were scoped before. -/
theorem labelled {n : Node Tree} {i : Nat} {e e' : Draft}
    (h : Draft.node n e = .ok (t, e')) (inScope : n.IsScoped)
    (label : n.label? = some (aliasName i))
    (hc : ∀ c ∈ n.children, c.Everywhere Node.IsScoped)
    (nodup : (n.children.flatMap sourceLabels).Nodup)
    (given : Given d d₁ (n.children.flatMap sourceLabels))
    (hd : d.aliases ≤ d₁.aliases) (hi : d₁.aliases ≤ i) (hi' : i < d'.aliases) :
    t.IsScopedFrom d d' ∧ t.introduced = [aliasName i] := by
  obtain ⟨rfl, -⟩ := node_ok.1 h
  have labels : (e.made n).sourceLabels = aliasName i :: n.children.flatMap sourceLabels := by
    rw [sourceLabels_eq, node_made, label]
    rfl
  refine ⟨⟨.mk inScope hc, ?_, ?_⟩, introduced_of_label label⟩
  · rw [labels, List.nodup_cons]
    refine ⟨fun hm ↦ ?_, nodup⟩
    obtain ⟨j, -, hj, he⟩ := given _ hm
    have := aliasName_injective he
    omega
  · rw [labels]
    intro l hl
    rcases List.mem_cons.1 hl with rfl | hl
    · exact ⟨i, hd.trans hi, hi', rfl⟩
    · exact given.mono le_rfl (hi.trans hi'.le) l hl

end Tree.IsScopedFrom

namespace Compiled

/-- Aliases of the row sources of the select. -/
def labels (c : Compiled) : List String := c.select.source.toList.flatMap sourceLabels

/-- The select reads the aliases of its row source, whose aliases were given while a draft grew to
another. Its limits read none. -/
structure IsScoped (d d' : Draft) (c : Compiled) : Prop where
  source : ∀ t ∈ c.select.source, t.IsScopedFrom d d'
  columns : c.PutsOut (IsOver c.select.introduced)
  filter : ∀ t ∈ c.select.filter, t.IsOver c.select.introduced
  groupBy : ∀ t ∈ c.select.groupBy, t.IsOver c.select.introduced
  having : c.select.having = none
  limit : ∀ t ∈ c.select.limit, t.IsOver []
  offset : ∀ t ∈ c.select.offset, t.IsOver []

namespace IsScoped

theorem mono (hc : c.IsScoped d d₁) (hd : d'.aliases ≤ d.aliases)
    (hd' : d₁.aliases ≤ d₂.aliases) : c.IsScoped d' d₂ :=
  { hc with source := fun t ht ↦ (hc.source t ht).mono hd hd' }

theorem given (hc : c.IsScoped d d') : Given d d' c.labels := by
  intro l hl
  obtain ⟨t, ht, hl⟩ := List.mem_flatMap.1 hl
  exact (hc.source t (Option.mem_toList.1 ht)).given l hl

theorem expressions (hc : c.IsScoped d d') :
    ∀ t ∈ c.select.expressions, t.IsOver c.select.introduced := by
  intro t ht
  simp only [Select.expressions, List.mem_append, Option.mem_toList, List.mem_map] at ht
  rcases ht with (((((ht | ht) | ht) | ht) | ⟨k, hk, rfl⟩) | ht) | ht
  · exact hc.columns.exprs t ht
  · exact hc.filter t ht
  · exact hc.groupBy t ht
  · rw [hc.having] at ht
    cases ht
  · exact hc.columns.orderBy k hk
  · exact (hc.limit t ht).mono (List.nil_subset _)
  · exact (hc.offset t ht).mono (List.nil_subset _)

/-- The select as a tree has the aliases of its row source. -/
theorem node {e e' : Draft} (hc : c.IsScoped d d')
    (h : Draft.node (.select c.select) e = .ok (t, e')) :
    t.IsScopedFrom d d' ∧ t.sourceLabels = c.labels := by
  obtain ⟨rfl, -⟩ := node_ok.1 h
  have children {u : Tree} (hu : u ∈ c.select.children) :
      u ∈ c.select.source ∨ u ∈ c.select.expressions := by
    simp only [Select.children, Select.expressions, List.mem_append, Option.mem_toList] at hu ⊢
    tauto
  have labels : (e.made (.select c.select)).sourceLabels = c.labels := by
    rw [sourceLabels_eq, node_made]
    have none {l : List Tree} (hl : ∀ u ∈ l, u ∈ c.select.expressions) :
        l.flatMap sourceLabels = [] :=
      List.flatMap_eq_nil_iff.2 fun u hu ↦ (hc.expressions u (hl u hu)).sourceless
    change c.select.children.flatMap sourceLabels = _
    simp only [Select.children, List.flatMap_append]
    rw [none (l := c.select.exprs), none (l := c.select.filter.toList),
      none (l := c.select.groupBy), none (l := c.select.having.toList),
      none (l := c.select.orderBy.map (·.expr)), none (l := c.select.limit.toList),
      none (l := c.select.offset.toList)]
    · simp [Compiled.labels]
    all_goals
      intro u hu
      simp only [Select.expressions, List.mem_append, hu, true_or, or_true]
  refine ⟨⟨.mk (fun u hu ↦ (hc.expressions u hu).reads) fun u hu ↦ ?_, ?_, ?_⟩, labels⟩
  · rcases children hu with hu | hu
    · exact (hc.source u hu).inScope
    · exact (hc.expressions u hu).inScope
  · rw [labels, Compiled.labels]
    cases hs : c.select.source with
    | none => exact List.nodup_nil
    | some source => simpa using (hc.source source hs).nodup
  · rw [labels]
    exact hc.given

/-- An operation that draws its columns from the select and leaves the other clauses keeps it
scoped. -/
theorem draws (hc : c.IsScoped d d') (draws : c.Draws c')
    (source : c'.select.source = c.select.source) (filter : c'.select.filter = c.select.filter)
    (groupBy : c'.select.groupBy = c.select.groupBy) (having : c'.select.having = c.select.having)
    (limit : ∀ t ∈ c'.select.limit, t.IsOver []) (offset : ∀ t ∈ c'.select.offset, t.IsOver []) :
    c'.IsScoped d d' := by
  have introduced : c'.select.introduced = c.select.introduced := by
    rw [Select.introduced, Select.introduced, source]
  constructor
  · exact source ▸ hc.source
  · rw [introduced]; exact hc.columns.draws draws
  · rw [introduced, filter]; exact hc.filter
  · rw [introduced, groupBy]; exact hc.groupBy
  · exact having.trans hc.having
  · exact limit
  · exact offset

end IsScoped

/-! ### Row sources -/

/-- A select of all columns of a row source reads the alias of the source. -/
theorem isScoped_selectAll {source : Tree} {label : String} {header : Header} {s : Select Tree}
    {e e' : Draft} (h : selectAll source label header e = .ok (s, e'))
    (hs : source.IsScopedFrom d d' ∧ source.introduced = [label]) (filter : Option Tree)
    (orderBy : List (SortKey Tree)) (header' : Header) (hf : ∀ t ∈ filter, t.IsOver [label])
    (ho : ∀ k ∈ orderBy, k.expr ∈ s.exprs ∨ k.expr.IsOver [label]) :
    IsScoped d d' ⟨{ s with filter, orderBy }, header'⟩ := by
  obtain ⟨exprs, rfl, he⟩ := selectAll_ok h
  have isOver : ∀ t ∈ exprs, t.IsOver [label] := by
    intro t ht
    obtain ⟨column, -, hn⟩ := List.mem_map.1 (he ▸ List.mem_map_of_mem ht)
    exact .column hn.symm
  have all : ∀ t ∈ (exprs.map fun t ↦ (⟨t, none⟩ : OutputColumn Tree)).map (·.expr),
      t.IsOver [label] := by
    simpa using isOver
  have introduced : Select.introduced
      { columns := exprs.map (⟨·, none⟩), source := some source, filter, orderBy } = [label] := hs.2
  constructor
  · simpa using hs.1
  · exact introduced ▸ ⟨all, fun k hk ↦ (ho k hk).elim (all k.expr) id⟩
  · exact introduced ▸ hf
  · simp
  · rfl
  · simp
  · simp

theorem isScoped_ofTable {t : Table} (h : ofTable t d = .ok (c, d')) : c.IsScoped d d' := by
  obtain ⟨source, e, hs, hc, -⟩ := ofTable_ok h
  have grown := ((growing_selectAll _ _ _).grows hc).aliases
  rw [(node_ok.1 hs).2] at grown
  have none : (Node.table t.schema t.name (some (aliasName d.aliases)) : Node Tree).children = [] :=
    rfl
  have read : source.IsScopedFrom d d' ∧ source.introduced = [aliasName d.aliases] := by
    refine Tree.IsScopedFrom.labelled hs trivial rfl (none ▸ nofun) ?_ ?_ (le_refl d.aliases) le_rfl
      grown
    · rw [none]
      exact List.nodup_nil
    · rw [none]
      exact nofun
  have inScope := isScoped_selectAll hc read Option.none [] c.header (by simp) (by simp)
  rw [selectAll_plain hc] at inScope
  exact inScope

/-- A derived table with a new alias is scoped if its query is. -/
theorem isScopedFrom_queryRef {query source : Tree} {e e₁ e₂ : Draft} {header : Header}
    {s : Select Tree} (hq : query.IsScopedFrom d d₁) (hd : d.aliases ≤ d₁.aliases)
    (he : e.aliases = d₁.aliases + 1)
    (hs : Draft.node (.queryRef query (aliasName d₁.aliases)) e = .ok (source, e₁))
    (hc : selectAll source (aliasName d₁.aliases) header e₁ = .ok (s, e₂))
    (hd' : e₂.aliases ≤ d'.aliases) :
    (source.IsScopedFrom d d' ∧ source.introduced = [aliasName d₁.aliases]) ∧
      source.sourceLabels = aliasName d₁.aliases :: query.sourceLabels := by
  have grown := ((growing_selectAll _ _ _).grows hc).aliases
  have given : d₁.aliases < d'.aliases := by
    rw [(node_ok.1 hs).2, aliases_withNode] at grown
    omega
  refine ⟨Tree.IsScopedFrom.labelled hs trivial rfl ?_ ?_ ?_ hd le_rfl given, ?_⟩
  · simpa [Node.children] using hq.inScope
  · simpa [Node.children] using hq.nodup
  · simpa [Node.children] using hq.given
  · obtain ⟨rfl, -⟩ := node_ok.1 hs
    rw [sourceLabels_eq]
    simp [Node.label?, Tree.children, Node.children]

theorem isScoped_ofNative {sql : String} {header : Header}
    (h : ofNative sql header d = .ok (c, d')) : c.IsScoped d d' := by
  obtain ⟨query, e₁, source, e₂, hq, hs, hc, -⟩ := ofNative_ok h
  have native : query.IsScopedFrom d d := by
    obtain ⟨rfl, -⟩ := node_ok.1 hq
    have none : (Draft.made { d with aliases := d.aliases + 1 } (.native sql)).sourceLabels = [] := by
      rw [sourceLabels_eq]
      rfl
    exact ⟨.mk trivial nofun, none ▸ List.nodup_nil, none ▸ nofun⟩
  have aliases : e₁.aliases = d.aliases + 1 := by rw [(node_ok.1 hq).2, aliases_withNode]
  have read : source.IsScopedFrom d d' ∧ source.introduced = [aliasName d.aliases] :=
    (isScopedFrom_queryRef native le_rfl aliases hs hc le_rfl).1
  have inScope := isScoped_selectAll hc read none [] c.header (by simp) (by simp)
  rw [selectAll_plain hc] at inScope
  exact inScope

namespace IsScoped

theorem derived (hc : c.IsScoped d d') : IsScoped d d' ⟨c.derived, c.header⟩ := by
  unfold Compiled.derived
  split
  · exact hc
  · exact hc.draws ⟨fun _ ht ↦ ht, nofun⟩ rfl rfl rfl rfl hc.limit hc.offset

/-- A wrapped select reads the alias of the derived table, which is a new one. -/
theorem wrap (hc : c.IsScoped d d₁) (hd : d.aliases ≤ d₁.aliases)
    (h : c.wrap d₁ = .ok (c', d₂)) :
    c'.IsScoped d d₂ ∧ c'.labels = aliasName d₁.aliases :: c.labels := by
  obtain ⟨query, e₁, source, e₂, outer, hq, hs, ho, rfl⟩ := wrap_ok h
  have aliases : e₁.aliases = d₁.aliases + 1 := by rw [(node_ok.1 hq).2, aliases_withNode]
  obtain ⟨query_scoped, query_labels⟩ := hc.derived.node hq
  obtain ⟨read, source_labels⟩ := isScopedFrom_queryRef query_scoped hd aliases hs ho le_rfl
  have inScope := isScoped_selectAll ho read none (outerOrder c.select outer.exprs) c.header
    (by simp) fun k hk ↦ .inl (mem_of_mem_outerOrder hk)
  have same : Compiled.labels ⟨c.derived, c.header⟩ = c.labels := by
    unfold Compiled.derived
    split <;> rfl
  obtain ⟨exprs, rfl, -⟩ := selectAll_ok ho
  refine ⟨inScope, ?_⟩
  rw [← same, ← query_labels, ← source_labels]
  exact List.append_nil _

/-- A select that takes up an operation has at most one more alias. -/
theorem wrapFor {op : Operation} (hc : c.IsScoped d d₁) (hd : d.aliases ≤ d₁.aliases)
    (h : c.wrapFor op d₁ = .ok (c', d₂)) :
    c'.IsScoped d d₂ ∧ ∃ added, Given d₁ d₂ added ∧ c'.labels = added ++ c.labels := by
  unfold Compiled.wrapFor at h
  split at h
  · obtain ⟨inScope, labels⟩ := hc.wrap hd h
    refine ⟨inScope, [aliasName d₁.aliases], ?_, labels⟩
    obtain ⟨query, e₁, source, e₂, outer, hq, hs, ho, -⟩ := wrap_ok h
    have grown := ((growing_selectAll _ _ _).grows ho).aliases
    rw [(node_ok.1 hs).2, (node_ok.1 hq).2] at grown
    exact fun l hl ↦ ⟨d₁.aliases, le_rfl, grown, List.mem_singleton.1 hl⟩
  · obtain ⟨rfl, rfl⟩ := pure_ok.1 h
    exact ⟨hc, [], nofun, rfl⟩

/-! ### Operations -/

theorem filter_isScoped {e : Scalar} {e₁ e₂ : Draft} (hc : c.IsScoped d d')
    (h : c.filter e e₁ = .ok (c', e₂)) : c'.IsScoped d d' := by
  obtain ⟨condition, e₃, filter, hs, hf, rfl⟩ := filter_ok h
  have isOver := (IsOver.computation c.select.introduced).rowwise
  have condition := isOver.scalar hc.columns.exprs (fun _ _ ↦ trivial) hs
  have filtered := isOver.conjunction hc.filter condition hf
  refine ⟨hc.source, ⟨hc.columns.exprs, hc.columns.orderBy⟩, ?_, hc.groupBy, hc.having, hc.limit,
    hc.offset⟩
  rintro t ⟨⟩
  exact filtered

theorem extend_isScoped {columns : List Calculation} {e₁ e₂ : Draft} (hc : c.IsScoped d d')
    (h : c.extend columns e₁ = .ok (c', e₂)) : c'.IsScoped d d' := by
  have select := select_extend h
  have introduced : c'.select.introduced = c.select.introduced := by
    rw [Select.introduced, select]
    rfl
  constructor
  · rw [select]; exact hc.source
  · rw [introduced]; exact hc.columns.extend (IsOver.computation _).rowwise (fun _ _ _ _ ↦ trivial) h
  · rw [introduced, select]; exact hc.filter
  · rw [introduced, select]; exact hc.groupBy
  · rw [select]; exact hc.having
  · rw [select]; exact hc.limit
  · rw [select]; exact hc.offset

/-- A join introduces the aliases of both sides. -/
theorem join {left right : Compiled} {type : JoinType} {pairs : List (Nat × Nat)}
    (hl : left.IsScoped d d₁) (hr : right.IsScoped d₁ d₂) (hd : d.aliases ≤ d₁.aliases)
    (hd₂ : d₁.aliases ≤ d₂.aliases) (h : left.join right type pairs d₂ = .ok (some c, d')) :
    c.IsScoped d d' := by
  obtain ⟨l, e₁, r, e₂, leftSource, rightSource, condition, e₃, kind, on, filter, e₄, source,
    hwl, hwr, hls, hrs, hcond, hparts, hs, rfl⟩ := join_ok h
  have g₁ := ((growing_wrapFor _ _).grows hwl).aliases
  have g₂ := ((growing_wrapFor _ _).grows hwr).aliases
  have g₃ := ((growing_joinCondition _ _ _ _).grows hcond).aliases
  have g₄ := ((growing_joinParts _ _ _ _).grows hparts).aliases
  have g₅ := ((Growing.node _).grows hs).aliases
  obtain ⟨l_scoped, addedL, givenL, labelsL⟩ := (hl.mono le_rfl hd₂).wrapFor (hd.trans hd₂) hwl
  obtain ⟨r_scoped, addedR, givenR, labelsR⟩ := (hr.mono le_rfl g₁).wrapFor (hd₂.trans g₁) hwr
  -- either side has its own aliases and one that is given here, the left one first
  have disjoint : l.labels.Disjoint r.labels := by
    rw [labelsL, labelsR, List.disjoint_append_left, List.disjoint_append_right,
      List.disjoint_append_right]
    exact ⟨⟨givenL.disjoint givenR le_rfl, (hr.given.disjoint givenL le_rfl).symm⟩,
      hl.given.disjoint givenR (hd₂.trans g₁), hl.given.disjoint hr.given le_rfl⟩
  have introducedL : l.select.introduced = leftSource.introduced := by
    rw [Select.introduced, hls]
    rfl
  have introducedR : r.select.introduced = rightSource.introduced := by
    rw [Select.introduced, hrs]
    rfl
  have isOver := (IsOver.computation (leftSource.introduced ++ rightSource.introduced)).rowwise
  have ofLeft {u : Tree} (hu : u.IsOver l.select.introduced) :
      u.IsOver (leftSource.introduced ++ rightSource.introduced) :=
    hu.mono (introducedL ▸ List.subset_append_left _ _)
  have ofRight {u : Tree} (hu : u.IsOver r.select.introduced) :
      u.IsOver (leftSource.introduced ++ rightSource.introduced) :=
    hu.mono (introducedR ▸ List.subset_append_right _ _)
  have matched := isOver.joinCondition (fun u hu ↦ ofLeft (l_scoped.columns.exprs u hu))
    (fun u hu ↦ ofRight (r_scoped.columns.exprs u hu)) (by simp) hcond
  obtain ⟨on_over, filter_over⟩ := isOver.joinParts matched
    (fun u hu ↦ ofLeft (l_scoped.filter u hu)) (fun u hu ↦ ofRight (r_scoped.filter u hu)) hparts
  have left_scoped : leftSource.IsScopedFrom d d' :=
    (l_scoped.source leftSource hls).mono le_rfl (by omega)
  have right_scoped : rightSource.IsScopedFrom d d' :=
    (r_scoped.source rightSource hrs).mono hd (by omega)
  have left_labels : leftSource.sourceLabels = l.labels := by simp [Compiled.labels, hls]
  have right_labels : rightSource.sourceLabels = r.labels := by simp [Compiled.labels, hrs]
  have source_node : source.node = .join kind leftSource rightSource on := by
    obtain ⟨rfl, -⟩ := node_ok.1 hs
    rfl
  have introduced : source.introduced = leftSource.introduced ++ rightSource.introduced :=
    introduced_join source_node
  have labels : source.sourceLabels = leftSource.sourceLabels ++ rightSource.sourceLabels := by
    have none : on.toList.flatMap sourceLabels = [] :=
      List.flatMap_eq_nil_iff.2 fun u hu ↦ (on_over u (Option.mem_toList.1 hu)).sourceless
    rw [sourceLabels_eq, Tree.children, source_node]
    simp [Node.label?, Node.children, none]
  have source_scoped : source.IsScopedFrom d d' := by
    refine ⟨.mk ?_ fun u hu ↦ ?_, ?_, ?_⟩
    · rw [source_node]
      exact fun u hu ↦ (on_over u hu).reads
    · rw [Tree.children, source_node] at hu
      change u ∈ leftSource :: rightSource :: on.toList at hu
      rw [List.mem_cons, List.mem_cons, Option.mem_toList] at hu
      rcases hu with rfl | rfl | hu
      · exact left_scoped.inScope
      · exact right_scoped.inScope
      · exact (on_over u hu).inScope
    · rw [labels, List.nodup_append']
      exact ⟨left_scoped.nodup, right_scoped.nodup, left_labels ▸ right_labels ▸ disjoint⟩
    · rw [labels]
      intro label hm
      rcases List.mem_append.1 hm with hm | hm
      · exact left_scoped.given label hm
      · exact right_scoped.given label hm
  have joined : Select.introduced { columns := (joinColumns l r).select.columns
                                    source := some source, filter } =
      leftSource.introduced ++ rightSource.introduced := introduced
  constructor
  · simpa using source_scoped
  · rw [joined]
    refine ⟨fun u hu ↦ ?_, by simp⟩
    rcases mem_exprs_joinColumns hu with hu | hu
    · exact ofLeft (l_scoped.columns.exprs u hu)
    · exact ofRight (r_scoped.columns.exprs u hu)
  · rw [joined]
    exact filter_over
  · simp
  · rfl
  · simp
  · simp

/-- An aggregate is over what its column is over. -/
private theorem isOver_aggregateExpr {labels : List String} {a : Aggregation} {header : Header}
    {exprs : List Tree} {e₁ e₂ : Draft} (he : ∀ u ∈ exprs, u.IsOver labels)
    (h : aggregateExpr a header exprs e₁ = .ok (t, e₂)) : t.IsOver labels := by
  obtain ⟨operand, call, e₃, found, -, hcall, cast⟩ := aggregateExpr_ok h
  have isOver : ∀ u ∈ operand, u.IsOver labels := by
    obtain ⟨-, rfl⟩ | ⟨i, u, -, hu, rfl⟩ := found
    · simp
    · simpa using he u (List.mem_of_getElem? hu)
  have called : call.IsOver labels := by
    obtain ⟨rfl, -⟩ := node_ok.1 hcall
    exact .ofChildren trivial rfl rfl fun u hu ↦ isOver u (Option.mem_toList.1 hu)
  obtain ⟨type, -, ht⟩ | ⟨-, rfl, -⟩ := cast
  · exact (IsOver.computation labels).rowwise.node rfl ht trivial (by simpa [Node.children] using called)
  · exact called

theorem aggregate {groupBy : List Nat} {aggregates : List Aggregation} {e₁ e₂ : Draft}
    (hc : c.IsScoped d d') (h : c.aggregate groupBy aggregates e₁ = .ok (c', e₂)) :
    c'.IsScoped d d' := by
  obtain ⟨groups, all, hg, ha, rfl⟩ := aggregate_ok h
  have keys : ∀ u ∈ groups.select.exprs, u.IsOver c.select.introduced := by
    intro u hu
    rcases mem_exprs_groupColumns hg hu with none | hu
    · cases none
    · exact hc.columns.exprs u hu
  have exprs : ∀ u ∈ all.select.exprs, u.IsOver c.select.introduced := by
    intro u hu
    rcases mem_exprs_aggregateColumns ha hu with hu | ⟨a, -, e₃, e₄, hu⟩
    · exact keys u hu
    · exact isOver_aggregateExpr hc.columns.exprs hu
  exact ⟨hc.source, ⟨exprs, by simp⟩, hc.filter, keys, hc.having, hc.limit, hc.offset⟩

/-! ### Pages -/

theorem ordered (hc : c.IsScoped d d') (isWanted : Bool) : (c.ordered isWanted).IsScoped d d' := by
  have draws := draws_ordered c isWanted
  obtain ⟨orderBy, same⟩ := ordered_eq c isWanted
  rw [same] at draws ⊢
  exact hc.draws draws rfl rfl rfl rfl hc.limit hc.offset

theorem limit_isScoped {count : Tree} {isOrdered : Bool} {e₁ e₂ : Draft} (hc : c.IsScoped d d')
    (ht : count.IsOver []) (h : c.limit count isOrdered e₁ = .ok (c', e₂)) :
    c'.IsScoped d d' := by
  obtain ⟨l, hl, rfl⟩ := limit_ok h
  have counted : l.IsOver [] := by
    split at hl
    · next existing he => exact (IsOver.computation []).rowwise.minCount (hc.limit existing he) ht hl
    · cases hl
      exact ht
  have limited : IsScoped d d' { c with select := { c.select with limit := some l } } :=
    hc.draws ⟨fun _ hm ↦ hm, fun _ hk ↦ .inl hk⟩ rfl rfl rfl rfl (by simpa using counted) hc.offset
  exact limited.ordered isOrdered

theorem offset_isScoped {count : Tree} {isOrdered : Bool} {e₁ e₂ : Draft} (hc : c.IsScoped d d')
    (ht : count.IsOver []) (h : c.offset count isOrdered e₁ = .ok (c', e₂)) :
    c'.IsScoped d d' := by
  obtain ⟨l, hl, rfl⟩ := offset_ok h
  have counted : l.IsOver [] := by
    split at hl
    · next existing he => exact (IsOver.computation []).rowwise.sumCounts (hc.offset existing he) ht hl
    · cases hl
      exact ht
  have skipped : IsScoped d d' { c with select := { c.select with offset := some l } } :=
    hc.draws ⟨fun _ hm ↦ hm, fun _ hk ↦ .inl hk⟩ rfl rfl rfl rfl hc.limit (by simpa using counted)
  exact skipped.ordered isOrdered

/-- Numbers of the rows are over what the columns are over. -/
private theorem withNumbers_isScoped {number : Tree} {e₁ e₂ : Draft} (hc : c.IsScoped d d')
    (h : Draft.node (.rowNumber c.numberingOrder) e₁ = .ok (number, e₂)) :
    IsScoped d d' ⟨c.withNumbers number, c.header⟩ := by
  have number_over : number.IsOver c.select.introduced := by
    obtain ⟨rfl, -⟩ := node_ok.1 h
    exact (IsOver.computation _).over.rowNumber _ hc.columns.numberingOrder
  refine ⟨hc.source, ⟨fun u hu ↦ ?_, fun k hk ↦ ?_⟩, hc.filter, hc.groupBy, hc.having, hc.limit,
    hc.offset⟩
  · obtain ⟨column, hm, rfl⟩ := List.mem_map.1 hu
    rcases List.mem_append.1 hm with hm | hm
    · exact hc.columns.exprs _ (List.mem_map_of_mem hm)
    · rw [List.mem_singleton.1 hm]
      exact number_over
  · simp only [withNumbers] at hk
    split at hk
    · exact hc.columns.orderBy k hk
    · cases hk

/-- A page by row numbers reads the alias of the numbered rows, which is a new one. -/
theorem numberedPage {skip take : Option Scalar} (hc : c.IsScoped d d₁)
    (hd : d.aliases ≤ d₁.aliases) (h : c.numberedPage skip take d₁ = .ok (c', d₂)) :
    c'.IsScoped d d₂ := by
  obtain ⟨number, e₁, query, e₂, source, e₃, outer, e₄, row, e₅, low, e₆, high, e₇, filter,
    hn, hq, hs, ho, hr, hlow, hhigh, hf, rfl⟩ := numberedPage_ok h
  have same : e₁.aliases = d₁.aliases := by rw [(node_ok.1 hn).2, aliases_withNode]
  have aliases : e₂.aliases = e₁.aliases + 1 := by rw [(node_ok.1 hq).2, aliases_withNode]
  have gr := ((Growing.node _).grows hr).aliases
  have glow := ((Growing.mapM_option (growing_scalar []) skip).grows hlow).aliases
  have ghigh := ((Growing.mapM_option (growing_scalar []) take).grows hhigh).aliases
  have gf := ((growing_numberCondition _ _ _).grows hf).aliases
  have numbered : IsScoped d e₁ ⟨c.withNumbers number, c.header⟩ :=
    (withNumbers_isScoped hc hn).mono le_rfl same.ge
  have query_scoped := (numbered.node hq).1
  have read : source.IsScopedFrom d d₂ ∧ source.introduced = [aliasName e₁.aliases] :=
    (isScopedFrom_queryRef query_scoped (hd.trans same.ge) aliases hs ho (by omega)).1
  have isOver := (IsOver.computation [aliasName e₁.aliases]).rowwise
  have row_over : row.IsOver [aliasName e₁.aliases] := by
    obtain ⟨rfl, -⟩ := node_ok.1 hr
    exact .column rfl
  have counted {count : Option Scalar} {u : Option Tree} {e e' : Draft}
      (h : count.mapM (scalar []) e = .ok (u, e')) : ∀ v ∈ u, v.IsOver [aliasName e₁.aliases] := by
    obtain ⟨-, rfl, -⟩ | ⟨s, v, -, rfl, hv⟩ := mapM_option_ok.1 h
    · simp
    · simpa using isOver.count (fun _ _ ↦ trivial) hv
  have filter_over := isOver.numberCondition row_over (counted hlow) (counted hhigh) hf
  exact isScoped_selectAll ho read filter [SortKey.of row true] c.header filter_over
    (by simpa [SortKey.of] using .inr row_over)

end IsScoped

end Compiled

namespace Relation

variable {r : Relation} {server : Server} {strategies : List Strategy}

theorem Drafted.isScoped (h : r.Drafted server d c d') : c.IsScoped d d' := by
  have counted {e : Scalar} {u : Tree} {e₁ e₂ : Draft} (h : scalar [] e e₁ = .ok (u, e₂)) :
      u.IsOver [] := (IsOver.computation []).rowwise.count (fun _ _ ↦ trivial) h
  induction h with
  | later g _ ih => exact ih.mono g.aliases le_rfl
  | table h => exact isScoped_ofTable h
  | native h => exact isScoped_ofNative h
  | filter h hw hf ih =>
    have grown := ((growing_filter _ _).grows hf).aliases
    exact ((ih.wrapFor h.grows.aliases hw).1.filter_isScoped hf).mono le_rfl grown
  | project h hw hp ih =>
    have wrapped := (ih.wrapFor h.grows.aliases hw).1
    have draws := draws_project hp
    obtain ⟨chosen, -, rfl⟩ := project_ok hp
    exact wrapped.draws draws rfl rfl rfl rfl wrapped.limit wrapped.offset
  | extend h hw he ih =>
    have grown := ((growing_extend _ _).grows he).aliases
    exact ((ih.wrapFor h.grows.aliases hw).1.extend_isScoped he).mono le_rfl grown
  | join hl hr hj ihl ihr => exact ihl.join ihr hl.grows.aliases hr.grows.aliases hj
  | aggregate h hw ha ih =>
    have grown := ((growing_aggregate _ _ _).grows ha).aliases
    exact ((ih.wrapFor h.grows.aliases hw).1.aggregate ha).mono le_rfl grown
  | sort h hw hs ih =>
    have wrapped := (ih.wrapFor h.grows.aliases hw).1
    have draws := draws_sort hs
    obtain ⟨orderBy, -, rfl⟩ := sort_ok hs
    exact wrapped.draws draws rfl rfl rfl rfl wrapped.limit wrapped.offset
  | distinct h hw ih =>
    have wrapped := (ih.wrapFor h.grows.aliases hw).1
    exact wrapped.draws (draws_distinct _) rfl rfl rfl rfl wrapped.limit wrapped.offset
  | take _ h ht hc ih =>
    have grown := (((growing_scalar _ _).grows ht).trans ((growing_limit _ _ _).grows hc)).aliases
    exact (ih.limit_isScoped (counted ht) hc).mono le_rfl grown
  | skip _ h hw ht hc ih =>
    have grown := (((growing_scalar _ _).grows ht).trans ((growing_offset _ _ _).grows hc)).aliases
    exact ((ih.wrapFor h.grows.aliases hw).1.offset_isScoped (counted ht) hc).mono le_rfl grown
  | page _ _ h hw ht hskip hu hc ih =>
    have grown := ((((growing_scalar _ _).grows ht).trans ((growing_offset _ _ _).grows hskip)).trans
      (((growing_scalar _ _).grows hu).trans ((growing_limit _ _ _).grows hc))).aliases
    have skipped := (ih.wrapFor h.grows.aliases hw).1.offset_isScoped (counted ht) hskip
    exact (skipped.limit_isScoped (counted hu) hc).mono le_rfl grown
  | numbered _ _ h hn ih => exact ih.numberedPage h.grows.aliases hn
  | lock _ ih =>
    exact ih.draws ⟨fun _ ht ↦ ht, fun _ hk ↦ .inl hk⟩ rfl rfl rfl rfl ih.limit ih.offset

/-- All row sources of a statement have aliases of their own, and each column is read where its
alias is in scope: in the clauses of a select from its FROM clause, and in a join condition from
the two sides of the join. -/
theorem statement_isScoped {s : Statement} (h : r.statement server strategies = .ok s) :
    s.tree.sourceLabels.Nodup ∧ s.tree.Everywhere Node.IsScoped := by
  obtain ⟨c, d, hc, rfl⟩ := statement_ok h
  have inScope := ((drafted_of_draft hc).isScoped.node (node_eq _ d)).1
  exact ⟨inScope.nodup, inScope.inScope⟩

/-- Second row of the rows of a table beside the different values equal to theirs. -/
def valuedRow : Relation :=
  let t : Table := ⟨none, "t", [⟨"id", .int32, false⟩, ⟨"value", .int32, true⟩], [0]⟩
  page (join (table t) (distinct (project (table t) [1])) .leftOuter [(1, 0)])
    (.constant (.integer 1)) (.constant (.integer 1))

/-- A join with a derived table becomes a derived table itself, whose rows are numbered. -/
theorem statement_isScoped_of_valuedRow :
    ∃ s, valuedRow.statement (.capabilities .sqlServer ⟨9, 0⟩) Strategy.standard = .ok s ∧
      s.tree.sourceLabels.Nodup ∧ s.tree.Everywhere Node.IsScoped := by
  have taken : valuedRow.Taken (.capabilities .sqlServer ⟨9, 0⟩) Strategy.standard := by
    simp [valuedRow, Taken, PageTaken, Strategy.standard, Server.capabilities]
  have wellFormed : valuedRow.WellFormed := by
    simp [valuedRow, WellFormed, width, Scalar.Fits]
  obtain ⟨s, hs⟩ := exists_statement_iff.2 ⟨taken, wellFormed⟩
  exact ⟨s, hs, statement_isScoped hs⟩

end Relation

end SqlWright
