import SqlWright.Proofs.Drafting.Derivation
import SqlWright.Proofs.Drafting.Expressions
import SqlWright.Proofs.Relation.WellFormed
import SqlWright.Proofs.Scopes.Columns

/-!
# What selects are made of

A drafted select is made of columns, computations and aggregates over a row source, which is made
of stored tables, native queries, derived tables and joins. So two properties, of expressions and
of row sources, hold of all that a select speaks of if they pass from parts to wholes in these ways
(`Tree.Pervades`). Of native queries and of parameters the property may hold for some only, as long
as the relation has no others.

A select is nested in another one as a derived table or with numbers of its rows
(`Compiled.Nests`). It is the select of a part of the relation, so a property that not every select
of such parts has may still be one of all that are nested: what is not nested need only pass it on
(`Tree.PervadesFlat`).
-/

namespace SqlWright

variable {d d' d₁ : Draft} {t : Tree} {c c' : Compiled} {natives : String → Prop}
  {speaks : Parameter → Prop} {E S : Tree → Prop}

open Drafting Draft Compiled SqlWright.Tree

/-- A property of expressions and one of row sources and queries that pass from parts to wholes,
over native queries of some texts and some parameters. -/
structure Tree.Pervades (natives : String → Prop) (speaks : Parameter → Prop)
    (E S : Tree → Prop) : Prop where
  computation : IsCompositionalOver speaks E
  column (i : Nat) (label name : String) : E (.mk i (.column (some label) name))
  aggregate (i : Nat) (kind : AggregateKind) (operand : Option Tree) : (∀ t ∈ operand, E t) →
    E (.mk i (.aggregate kind false operand))
  table (i : Nat) (schema : Option String) (name label : String) :
    S (.mk i (.table schema name (some label)))
  native (i : Nat) (sql : String) : natives sql → S (.mk i (.native sql))
  queryRef (i : Nat) (query : Tree) (label : String) : S query → S (.mk i (.queryRef query label))
  join (i : Nat) (kind : JoinKind) (left right : Tree) (on : Option Tree) : S left → S right →
    (∀ t ∈ on, E t) → S (.mk i (.join kind left right on))
  select (i : Nat) (s : Select Tree) : (∀ t ∈ s.source, S t) → (∀ t ∈ s.expressions, E t) →
    S (.mk i (.select s))

/-- A property of expressions and one of row sources that pass from parts to wholes where no select
is nested and no rows are numbered, over native queries of some texts and some parameters. -/
structure Tree.PervadesFlat (natives : String → Prop) (speaks : Parameter → Prop)
    (E S : Tree → Prop) : Prop where
  rowwise : IsRowwiseOver speaks E
  column (i : Nat) (label name : String) : E (.mk i (.column (some label) name))
  aggregate (i : Nat) (kind : AggregateKind) (operand : Option Tree) : (∀ t ∈ operand, E t) →
    E (.mk i (.aggregate kind false operand))
  table (i : Nat) (schema : Option String) (name label : String) :
    S (.mk i (.table schema name (some label)))
  native (i j : Nat) (sql label : String) : natives sql →
    S (.mk j (.queryRef (.mk i (.native sql)) label))
  join (i : Nat) (kind : JoinKind) (left right : Tree) (on : Option Tree) : S left → S right →
    (∀ t ∈ on, E t) → S (.mk i (.join kind left right on))

theorem Tree.Pervades.flat (p : Pervades natives speaks E S) :
    PervadesFlat natives speaks E S where
  rowwise := p.computation.rowwise
  column := p.column
  aggregate := p.aggregate
  table := p.table
  native _ _ _ _ given := p.queryRef _ _ _ (p.native _ _ given)
  join := p.join

/-- Node of a drafted statement, over native queries of some texts and some parameters. Variables
are not drafted. -/
def Node.IsDrafted {α : Type} (natives : String → Prop) (speaks : Parameter → Prop) :
    Node α → Prop
  | .native sql => natives sql
  | .parameter q => speaks q
  | .variable _ => False
  | _ => True

/-- To be made of nodes that are drafted passes from parts of a statement to wholes. -/
theorem Tree.pervades_isDrafted (natives : String → Prop) (speaks : Parameter → Prop) :
    Pervades natives speaks (Everywhere (Node.IsDrafted natives speaks))
      (Everywhere (Node.IsDrafted natives speaks)) where
  computation t ht hp hc := by
    refine .mk ?_ hc
    generalize t.node = n at ht hp
    cases n with
    | parameter q => exact hp
    | native _ | «variable» _ => cases ht
    | _ => trivial
  column _ _ _ := .mk trivial nofun
  aggregate _ _ _ ho := .mk trivial (by simpa [children, node, Node.children] using ho)
  table _ _ _ _ := .mk trivial nofun
  native _ _ given := .mk given nofun
  queryRef _ _ _ hq := .mk trivial (by simpa [children, node, Node.children] using hq)
  join _ _ _ _ _ hl hr hon :=
    .mk trivial (by simpa [children, node, Node.children, hl, hr] using hon)
  select i _ hs he := .select i trivial hs he

namespace Compiled

/-- The row source of the select has the second property, and its expressions have the first. -/
structure ConsistsOf (E S : Tree → Prop) (c : Compiled) : Prop where
  source : ∀ t ∈ c.select.source, S t
  columns : c.PutsOut E
  filter : ∀ t ∈ c.select.filter, E t
  groupBy : ∀ t ∈ c.select.groupBy, E t
  having : ∀ t ∈ c.select.having, E t
  limit : ∀ t ∈ c.select.limit, E t
  offset : ∀ t ∈ c.select.offset, E t

/-- What is made of a select that is nested in another one has the properties: a derived table, and
where its rows are numbered, the numbers and a derived table of numbered rows. -/
structure Nests (E S : Tree → Prop) (isNumbered : Prop) (c : Compiled) : Prop where
  derived (i j : Nat) (label : String) : S (.mk j (.queryRef (.mk i (.select c.derived)) label))
  number (i : Nat) : isNumbered → E (.mk i (.rowNumber c.numberingOrder))
  numbered (i j k : Nat) (label : String) : isNumbered → S (.mk j (.queryRef
    (.mk i (.select (c.withNumbers (.mk k (.rowNumber c.numberingOrder))))) label))

namespace ConsistsOf

theorem expressions (hc : c.ConsistsOf E S) : ∀ t ∈ c.select.expressions, E t := by
  intro t ht
  simp only [Select.expressions, List.mem_append, Option.mem_toList, List.mem_map] at ht
  rcases ht with (((((ht | ht) | ht) | ht) | ⟨k, hk, rfl⟩) | ht) | ht
  · exact hc.columns.exprs t ht
  · exact hc.filter t ht
  · exact hc.groupBy t ht
  · exact hc.having t ht
  · exact hc.columns.orderBy k hk
  · exact hc.limit t ht
  · exact hc.offset t ht

/-- The select as a tree. -/
theorem node (p : Pervades natives speaks E S) (hc : c.ConsistsOf E S)
    (h : Draft.node (.select c.select) d = .ok (t, d')) : S t := by
  obtain ⟨rfl, -⟩ := node_ok.1 h
  exact p.select _ _ hc.source hc.expressions

/-- An operation that draws its columns from the select and leaves the row source and the
conditions. -/
theorem draws (hc : c.ConsistsOf E S) (draws : c.Draws c')
    (source : c'.select.source = c.select.source) (filter : c'.select.filter = c.select.filter)
    (groupBy : c'.select.groupBy = c.select.groupBy) (having : c'.select.having = c.select.having)
    (limit : ∀ t ∈ c'.select.limit, E t) (offset : ∀ t ∈ c'.select.offset, E t) :
    c'.ConsistsOf E S where
  source := source ▸ hc.source
  columns := hc.columns.draws draws
  filter := filter ▸ hc.filter
  groupBy := groupBy ▸ hc.groupBy
  having := having ▸ hc.having
  limit := limit
  offset := offset

/-! ### Row sources -/

/-- A select of all columns of a row source. -/
theorem selectAll (p : PervadesFlat natives speaks E S) {source : Tree} {label : String}
    {header : Header} {s : Select Tree}
    (h : Compiled.selectAll source label header d = .ok (s, d')) (hs : S source)
    (filter : Option Tree) (orderBy : List (SortKey Tree)) (header' : Header)
    (hf : ∀ t ∈ filter, E t) (ho : ∀ k ∈ orderBy, k.expr ∈ s.exprs ∨ E k.expr) :
    ConsistsOf E S ⟨{ s with filter, orderBy }, header'⟩ := by
  obtain ⟨exprs, rfl, he⟩ := selectAll_ok h
  have columns : ∀ t ∈ exprs, E t := by
    intro t ht
    obtain ⟨info, -, hn⟩ := List.mem_map.1 (he ▸ List.mem_map_of_mem ht)
    obtain ⟨i, n⟩ := t
    cases hn
    exact p.column i label info.name
  have all : ∀ t ∈ (exprs.map fun t ↦ (⟨t, none⟩ : OutputColumn Tree)).map (·.expr), E t := by
    simpa using columns
  exact ⟨by simpa using hs, ⟨all, fun k hk ↦ (ho k hk).elim (all k.expr) id⟩, hf, by simp, by simp,
    by simp, by simp⟩

theorem ofTable (p : PervadesFlat natives speaks E S) {table : Table}
    (h : Compiled.ofTable table d = .ok (c, d')) : c.ConsistsOf E S := by
  obtain ⟨source, d₁, hs, hc, -⟩ := ofTable_ok h
  obtain ⟨rfl, -⟩ := node_ok.1 hs
  have made := selectAll p hc (p.table _ _ _ _) none [] c.header (by simp) (by simp)
  rwa [selectAll_plain hc] at made

theorem ofNative (p : PervadesFlat natives speaks E S) {sql : String} {header : Header}
    (given : natives sql) (h : Compiled.ofNative sql header d = .ok (c, d')) :
    c.ConsistsOf E S := by
  obtain ⟨query, d₁, source, d₂, hq, hs, hc, -⟩ := ofNative_ok h
  obtain ⟨rfl, -⟩ := node_ok.1 hq
  obtain ⟨rfl, -⟩ := node_ok.1 hs
  have made := selectAll p hc (p.native _ _ _ _ given) none [] c.header (by simp) (by simp)
  rwa [selectAll_plain hc] at made

theorem derived (hc : c.ConsistsOf E S) : ConsistsOf E S ⟨c.derived, c.header⟩ := by
  unfold Compiled.derived
  split
  · exact hc
  · exact hc.draws ⟨fun _ ht ↦ ht, nofun⟩ rfl rfl rfl rfl hc.limit hc.offset

/-- The select with a column for numbers of its rows. -/
theorem withNumbers (hc : c.ConsistsOf E S) {number : Tree} (hn : E number) :
    ConsistsOf E S ⟨c.withNumbers number, c.header⟩ := by
  refine { hc with columns := ⟨fun u hu ↦ ?_, fun k hk ↦ ?_⟩ }
  · obtain ⟨column, hm, rfl⟩ := List.mem_map.1 hu
    rcases List.mem_append.1 hm with hm | hm
    · exact hc.columns.exprs _ (List.mem_map_of_mem hm)
    · rw [List.mem_singleton.1 hm]
      exact hn
  · simp only [Compiled.withNumbers] at hk
    split at hk
    · exact hc.columns.orderBy k hk
    · cases hk

/-- Properties that pass from parts to wholes hold of what is nested. -/
theorem nests (p : Pervades natives speaks E S) (hc : c.ConsistsOf E S) (isNumbered : Prop) :
    c.Nests E S isNumbered where
  derived i _ _ := p.queryRef _ _ _ (p.select i _ hc.derived.source hc.derived.expressions)
  number i _ := p.computation.rowNumber i hc.columns.numberingOrder
  numbered i _ k _ _ :=
    have numbered := hc.withNumbers (p.computation.rowNumber k hc.columns.numberingOrder)
    p.queryRef _ _ _ (p.select i _ numbered.source numbered.expressions)

theorem wrap {isNumbered : Prop} (p : PervadesFlat natives speaks E S)
    (nests : c.Nests E S isNumbered) (h : c.wrap d = .ok (c', d')) : c'.ConsistsOf E S := by
  obtain ⟨query, d₁, source, d₂, outer, hq, hs, ho, rfl⟩ := wrap_ok h
  obtain ⟨rfl, -⟩ := node_ok.1 hq
  obtain ⟨rfl, -⟩ := node_ok.1 hs
  have outer_made := selectAll p ho (nests.derived _ _ _) none
    (outerOrder c.select outer.exprs) c.header (by simp) fun k hk ↦ .inl (mem_of_mem_outerOrder hk)
  obtain ⟨exprs, rfl, -⟩ := selectAll_ok ho
  exact outer_made

theorem wrapFor {op : Operation} {isNumbered : Prop} (p : PervadesFlat natives speaks E S)
    (hc : c.ConsistsOf E S) (nests : c.Nests E S isNumbered)
    (h : c.wrapFor op d = .ok (c', d')) : c'.ConsistsOf E S := by
  unfold Compiled.wrapFor at h
  split at h
  · exact .wrap p nests h
  · obtain ⟨rfl, -⟩ := pure_ok.1 h
    exact hc

/-! ### Operations -/

theorem filtered {e : Scalar} (p : PervadesFlat natives speaks E S) (hc : c.ConsistsOf E S)
    (spoken : ∀ q ∈ e.parameters, speaks q) (h : c.filter e d = .ok (c', d')) :
    c'.ConsistsOf E S := by
  obtain ⟨condition, d₁, filter, hs, hf, rfl⟩ := filter_ok h
  have tested := p.rowwise.scalar hc.columns.exprs spoken hs
  have both := p.rowwise.conjunction hc.filter tested hf
  exact { hc with columns := ⟨hc.columns.exprs, hc.columns.orderBy⟩, filter := by simpa using both }

theorem projected {columns : List Nat} (hc : c.ConsistsOf E S) (h : c.project columns = .ok c') :
    c'.ConsistsOf E S := by
  have draws := draws_project h
  obtain ⟨chosen, -, rfl⟩ := project_ok h
  exact hc.draws draws rfl rfl rfl rfl hc.limit hc.offset

theorem extended {columns : List Calculation} (p : PervadesFlat natives speaks E S)
    (hc : c.ConsistsOf E S) (spoken : ∀ k ∈ columns, ∀ q ∈ k.expr.parameters, speaks q)
    (h : c.extend columns d = .ok (c', d')) : c'.ConsistsOf E S := by
  have select := select_extend h
  refine ⟨?_, hc.columns.extend p.rowwise spoken h, ?_, ?_, ?_, ?_, ?_⟩
  · rw [select]; exact hc.source
  · rw [select]; exact hc.filter
  · rw [select]; exact hc.groupBy
  · rw [select]; exact hc.having
  · rw [select]; exact hc.limit
  · rw [select]; exact hc.offset

theorem joined {left right : Compiled} {type : JoinType} {pairs : List (Nat × Nat)}
    {isNumberedL isNumberedR : Prop}
    (p : PervadesFlat natives speaks E S) (hl : left.ConsistsOf E S) (hr : right.ConsistsOf E S)
    (nestsL : left.Nests E S isNumberedL) (nestsR : right.Nests E S isNumberedR)
    (h : left.join right type pairs d = .ok (some c, d')) : c.ConsistsOf E S := by
  obtain ⟨l, d₁, r, d₂, leftSource, rightSource, condition, d₃, kind, on, filter, d₄, source,
    hwl, hwr, hls, hrs, hcond, hparts, hs, rfl⟩ := join_ok h
  have l_made := hl.wrapFor p nestsL hwl
  have r_made := hr.wrapFor p nestsR hwr
  have matched := p.rowwise.joinCondition l_made.columns.exprs r_made.columns.exprs (by simp)
    hcond
  obtain ⟨on_made, filter_made⟩ :=
    p.rowwise.joinParts matched l_made.filter r_made.filter hparts
  obtain ⟨rfl, -⟩ := node_ok.1 hs
  have both : S (d₄.made (.join kind leftSource rightSource on)) :=
    p.join _ _ _ _ _ (l_made.source leftSource hls) (r_made.source rightSource hrs) on_made
  refine ⟨by simpa using both, ⟨fun t ht ↦ ?_, by simp⟩, filter_made, by simp, by simp, by simp,
    by simp⟩
  exact (mem_exprs_joinColumns ht).elim (l_made.columns.exprs t) (r_made.columns.exprs t)

private theorem aggregateExpr_made {a : Aggregation} {header : Header} {exprs : List Tree}
    (p : PervadesFlat natives speaks E S) (he : ∀ u ∈ exprs, E u)
    (h : aggregateExpr a header exprs d = .ok (t, d')) : E t := by
  obtain ⟨operand, call, d₁, found, -, hcall, cast⟩ := aggregateExpr_ok h
  have made : ∀ u ∈ operand, E u := by
    obtain ⟨-, rfl⟩ | ⟨i, u, -, hu, rfl⟩ := found
    · simp
    · simpa using he u (List.mem_of_getElem? hu)
  have called : E call := by
    obtain ⟨rfl, -⟩ := node_ok.1 hcall
    exact p.aggregate _ _ _ made
  obtain ⟨type, -, ht⟩ | ⟨-, rfl, -⟩ := cast
  · exact p.rowwise.node rfl ht trivial (by simpa [Node.children] using called)
  · exact called

theorem aggregated {groupBy : List Nat} {aggregates : List Aggregation}
    (p : PervadesFlat natives speaks E S) (hc : c.ConsistsOf E S)
    (h : c.aggregate groupBy aggregates d = .ok (c', d')) : c'.ConsistsOf E S := by
  obtain ⟨groups, all, hg, ha, rfl⟩ := aggregate_ok h
  have keys : ∀ u ∈ groups.select.exprs, E u := by
    intro u hu
    rcases mem_exprs_groupColumns hg hu with none | hu
    · cases none
    · exact hc.columns.exprs u hu
  have exprs : ∀ u ∈ all.select.exprs, E u := by
    intro u hu
    rcases mem_exprs_aggregateColumns ha hu with hu | ⟨a, -, d₁, d₂, hu⟩
    · exact keys u hu
    · exact aggregateExpr_made p hc.columns.exprs hu
  exact { hc with columns := ⟨exprs, by simp⟩, groupBy := keys }

theorem sorted {order : List SortItem} (hc : c.ConsistsOf E S) (h : c.sort order = .ok c') :
    c'.ConsistsOf E S := by
  have draws := draws_sort h
  obtain ⟨orderBy, -, rfl⟩ := sort_ok h
  exact hc.draws draws rfl rfl rfl rfl hc.limit hc.offset

/-! ### Pages -/

theorem ordered (hc : c.ConsistsOf E S) (isWanted : Bool) :
    (c.ordered isWanted).ConsistsOf E S := by
  have draws := draws_ordered c isWanted
  obtain ⟨orderBy, same⟩ := ordered_eq c isWanted
  rw [same] at draws ⊢
  exact hc.draws draws rfl rfl rfl rfl hc.limit hc.offset

theorem limited {count : Tree} {isOrdered : Bool} (p : PervadesFlat natives speaks E S)
    (hc : c.ConsistsOf E S) (ht : E count) (h : c.limit count isOrdered d = .ok (c', d')) :
    c'.ConsistsOf E S := by
  obtain ⟨l, hl, rfl⟩ := limit_ok h
  have counted : E l := by
    split at hl
    · next existing he => exact p.rowwise.minCount (hc.limit existing he) ht hl
    · cases hl
      exact ht
  have limited : ConsistsOf E S { c with select := { c.select with limit := some l } } :=
    hc.draws ⟨fun _ hm ↦ hm, fun _ hk ↦ .inl hk⟩ rfl rfl rfl rfl (by simpa using counted) hc.offset
  exact limited.ordered isOrdered

theorem skipped {count : Tree} {isOrdered : Bool} (p : PervadesFlat natives speaks E S)
    (hc : c.ConsistsOf E S) (ht : E count) (h : c.offset count isOrdered d = .ok (c', d')) :
    c'.ConsistsOf E S := by
  obtain ⟨l, hl, rfl⟩ := offset_ok h
  have counted : E l := by
    split at hl
    · next existing he => exact p.rowwise.sumCounts (hc.offset existing he) ht hl
    · cases hl
      exact ht
  have skipped : ConsistsOf E S { c with select := { c.select with offset := some l } } :=
    hc.draws ⟨fun _ hm ↦ hm, fun _ hk ↦ .inl hk⟩ rfl rfl rfl rfl hc.limit (by simpa using counted)
  exact skipped.ordered isOrdered

theorem numberedPage {skip take : Option Scalar} {isNumbered : Prop}
    (p : PervadesFlat natives speaks E S) (nests : c.Nests E S isNumbered) (numbered : isNumbered)
    (spokenSkip : ∀ e ∈ skip, ∀ q ∈ e.parameters, speaks q)
    (spokenTake : ∀ e ∈ take, ∀ q ∈ e.parameters, speaks q)
    (h : c.numberedPage skip take d = .ok (c', d')) : c'.ConsistsOf E S := by
  obtain ⟨number, d₁, query, d₂, source, d₃, outer, d₄, row, d₅, low, d₆, high, d₇, filter,
    hn, hq, hs, ho, hr, hlow, hhigh, hf, rfl⟩ := numberedPage_ok h
  obtain ⟨rfl, -⟩ := node_ok.1 hn
  obtain ⟨rfl, -⟩ := node_ok.1 hq
  obtain ⟨rfl, -⟩ := node_ok.1 hs
  have row_made : E row := by
    obtain ⟨rfl, -⟩ := node_ok.1 hr
    exact p.column _ _ _
  have counted {count : Option Scalar} {u : Option Tree} {e e' : Draft}
      (spoken : ∀ e ∈ count, ∀ q ∈ e.parameters, speaks q)
      (h : count.mapM (scalar []) e = .ok (u, e')) : ∀ v ∈ u, E v := by
    obtain ⟨-, rfl, -⟩ | ⟨s, v, rfl, rfl, hv⟩ := mapM_option_ok.1 h
    · simp
    · simpa using p.rowwise.count (spoken s rfl) hv
  have filter_made := p.rowwise.numberCondition row_made (counted spokenSkip hlow)
    (counted spokenTake hhigh) hf
  exact selectAll p ho (nests.numbered _ _ _ _ numbered) filter [SortKey.of row true] c.header
    filter_made (by simpa [SortKey.of] using .inr row_made)

end ConsistsOf

end Compiled

namespace Relation

variable {server : Server} {strategies : List Strategy} {r : Relation}

/-- The native queries among the parts have some texts. -/
def Natives (natives : String → Prop) (r : Relation) : Prop :=
  ∀ sql header, .native sql header ∈ r.parts → natives sql

theorem Natives.tail {q : Relation} (h : r.Natives natives) (hq : q ∈ r.parts.tail) :
    q.Natives natives :=
  fun sql header hn ↦ h sql header (mem_parts_trans hn (List.mem_of_mem_tail hq))

/-- A page of the other relation is part of the relation. -/
def Pages (r p : Relation) : Prop := ∃ q ∈ r.parts, ∃ skip take, p.IsPage q skip take

theorem Pages.mono {p q : Relation} (h : q.Pages p) (hq : q ∈ r.parts) : r.Pages p := by
  obtain ⟨page, hp, part⟩ := h
  exact ⟨page, mem_parts_trans hp hq, part⟩

/-- What is nested of selects of parts of the relation has two properties if all that they speak of
has them. -/
def Nests (server : Server) (E S : Tree → Prop) (r : Relation) : Prop :=
  ∀ p ∈ r.parts, ∀ {d c d'}, p.Drafted server d c d' → c.ConsistsOf E S → c.Nests E S (r.Pages p)

theorem Nests.tail {q : Relation} (h : r.Nests server E S) (hq : q ∈ r.parts.tail) :
    q.Nests server E S := by
  intro p hp _ _ _ drafted made
  have part := List.mem_of_mem_tail hq
  have nested := h p (mem_parts_trans hp part) drafted made
  exact ⟨nested.derived, fun i page ↦ nested.number i (page.mono part),
    fun i j k label page ↦ nested.numbered i j k label (page.mono part)⟩

/-- What the select of a source speaks of and what is nested of it. -/
private theorem Nests.source {q : Relation} (h : r.Nests server E S) (hq : q ∈ r.parts.tail)
    (drafted : q.Drafted server d c d') (made : q.Nests server E S → c.ConsistsOf E S) :
    c.ConsistsOf E S ∧ c.Nests E S (r.Pages q) :=
  ⟨made (h.tail hq), h q (List.mem_of_mem_tail hq) drafted (made (h.tail hq))⟩

/-- Properties hold of all that a drafted select speaks of, if what is not nested in other selects
passes them on. -/
theorem Drafted.consistsOf_nested (h : r.Drafted server d c d')
    (p : PervadesFlat natives speaks E S) (nests : r.Nests server E S)
    (given : r.Natives natives) (spoken : ∀ q ∈ r.parameters, speaks q) : c.ConsistsOf E S := by
  induction h with
  | later _ _ ih => exact ih nests given spoken
  | table h => exact .ofTable p h
  | native h => exact .ofNative p (given _ _ (mem_parts_self _)) h
  | filter h hw hf ih =>
    rw [parameters, List.forall_mem_append] at spoken
    obtain ⟨source, nested⟩ := nests.source (mem_parts_self _) h
      (ih · (given.tail (mem_parts_self _)) spoken.1)
    exact (source.wrapFor p nested hw).filtered p spoken.2 hf
  | project h hw hp ih =>
    obtain ⟨source, nested⟩ := nests.source (mem_parts_self _) h
      (ih · (given.tail (mem_parts_self _)) spoken)
    exact (source.wrapFor p nested hw).projected hp
  | extend h hw he ih =>
    rw [parameters, List.forall_mem_append] at spoken
    obtain ⟨source, nested⟩ := nests.source (mem_parts_self _) h
      (ih · (given.tail (mem_parts_self _)) spoken.1)
    exact (source.wrapFor p nested hw).extended p
      (fun k hk q hq ↦ spoken.2 q (List.mem_flatMap.2 ⟨k, hk, hq⟩)) he
  | @join a b _ _ _ _ _ _ _ _ _ hl hr hj ihl ihr =>
    rw [parameters, List.forall_mem_append] at spoken
    have inLeft : a ∈ a.parts ++ b.parts := List.mem_append_left _ (mem_parts_self a)
    have inRight : b ∈ a.parts ++ b.parts := List.mem_append_right _ (mem_parts_self b)
    obtain ⟨left, nestedL⟩ := nests.source inLeft hl (ihl · (given.tail inLeft) spoken.1)
    obtain ⟨right, nestedR⟩ := nests.source inRight hr (ihr · (given.tail inRight) spoken.2)
    exact .joined p left right nestedL nestedR hj
  | aggregate h hw ha ih =>
    obtain ⟨source, nested⟩ := nests.source (mem_parts_self _) h
      (ih · (given.tail (mem_parts_self _)) spoken)
    exact (source.wrapFor p nested hw).aggregated p ha
  | sort h hw hs ih =>
    obtain ⟨source, nested⟩ := nests.source (mem_parts_self _) h
      (ih · (given.tail (mem_parts_self _)) spoken)
    exact (source.wrapFor p nested hw).sorted hs
  | distinct h hw ih =>
    obtain ⟨source, nested⟩ := nests.source (mem_parts_self _) h
      (ih · (given.tail (mem_parts_self _)) spoken)
    have wrapped := source.wrapFor p nested hw
    exact wrapped.draws (draws_distinct _) rfl rfl rfl rfl wrapped.limit wrapped.offset
  | take _ _ ht hl ih =>
    rw [parameters, List.forall_mem_append] at spoken
    exact (ih (nests.tail (mem_parts_self _)) (given.tail (mem_parts_self _)) spoken.1).limited p
      (p.rowwise.count spoken.2 ht) hl
  | skip _ h hw ht ho ih =>
    rw [parameters, List.forall_mem_append] at spoken
    obtain ⟨source, nested⟩ := nests.source (mem_parts_self _) h
      (ih · (given.tail (mem_parts_self _)) spoken.1)
    exact (source.wrapFor p nested hw).skipped p (p.rowwise.count spoken.2 ht) ho
  | page _ _ h hw ht ho hu hl ih =>
    rw [parameters, List.forall_mem_append, List.forall_mem_append] at spoken
    obtain ⟨source, nested⟩ := nests.source (mem_parts_self _) h
      (ih · (given.tail (mem_parts_self _)) spoken.1.1)
    exact ((source.wrapFor p nested hw).skipped p (p.rowwise.count spoken.1.2 ht) ho).limited p
      (p.rowwise.count spoken.2 hu) hl
  | @numbered source whole _ _ _ _ _ _ _ _ page h hn ih =>
    have pages : whole.Pages source := ⟨whole, mem_parts_self whole, _, _, page⟩
    cases page with
    | take _ =>
      rw [parameters, List.forall_mem_append] at spoken
      have nested := (nests.source (mem_parts_self _) h
        (ih · (given.tail (mem_parts_self _)) spoken.1)).2
      exact .numberedPage p nested pages (by simp) (by simpa using spoken.2) hn
    | skip _ =>
      rw [parameters, List.forall_mem_append] at spoken
      have nested := (nests.source (mem_parts_self _) h
        (ih · (given.tail (mem_parts_self _)) spoken.1)).2
      exact .numberedPage p nested pages (by simpa using spoken.2) (by simp) hn
    | page _ _ =>
      rw [parameters, List.forall_mem_append, List.forall_mem_append] at spoken
      have nested := (nests.source (mem_parts_self _) h
        (ih · (given.tail (mem_parts_self _)) spoken.1.1)).2
      exact .numberedPage p nested pages (by simpa using spoken.1.2) (by simpa using spoken.2) hn
  | lock _ ih =>
    have unlocked := ih (nests.tail (mem_parts_self _)) (given.tail (mem_parts_self _)) spoken
    exact unlocked.draws ⟨fun _ ht ↦ ht, fun _ hk ↦ .inl hk⟩ rfl rfl rfl rfl unlocked.limit
      unlocked.offset

/-- Properties that pass from parts to wholes hold of all that a drafted select speaks of. -/
theorem Drafted.consistsOf (h : r.Drafted server d c d') (p : Pervades natives speaks E S)
    (given : r.Natives natives) (spoken : ∀ q ∈ r.parameters, speaks q) : c.ConsistsOf E S :=
  h.consistsOf_nested p.flat (fun _ _ _ _ _ _ made ↦ made.nests p _) given spoken

/-- A property of row sources and queries that passes from parts to wholes holds of a statement. -/
theorem statement_pervaded {s : Statement} (h : r.statement server strategies = .ok s)
    (p : Pervades natives speaks E S) (given : r.Natives natives)
    (spoken : ∀ q ∈ r.parameters, speaks q) : S s.tree := by
  obtain ⟨c, d, hc, rfl⟩ := statement_ok h
  exact ((drafted_of_draft hc).consistsOf p given spoken).node p (node_eq _ d)

end Relation

end SqlWright
