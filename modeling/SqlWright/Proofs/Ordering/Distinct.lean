import SqlWright.Proofs.Command.Complete
import SqlWright.Proofs.Command.Drafted
import SqlWright.Proofs.Command.ItemizedNodes
import SqlWright.Proofs.Drafting.Nested
import SqlWright.Proofs.Ordering.Headers
import SqlWright.Proofs.Relation.Wrapping

/-!
# Orderings of different rows

A select of different rows can be ordered by its output columns only. Every operation sees to it
that its sort keys are output columns: DISTINCT leaves out the other ones, later sorts and pages
order by columns, and a projection reads the select as a derived table. But where an offset needs an
ordering and the select has none, a server is given one that is no output column.
-/

namespace SqlWright

variable {d d' : Draft} {c c' : Compiled}

open Drafting Draft Compiled

/-! ### Sort keys of different rows -/

namespace Compiled

/-- A select of different rows has output columns for sort keys. -/
def SortsOutputs (s : Select Tree) : Prop := s.distinct → ∀ k ∈ s.orderBy, isOutput s k

theorem isOutput_of_mem {s : Select Tree} {k : SortKey Tree} (h : k.expr ∈ s.exprs) :
    isOutput s k := List.any_eq_true.2 ⟨k.expr, h, beq_self_eq_true _⟩

theorem sortsOutputs_of_all {s : Select Tree} (h : s.distinct = false) : SortsOutputs s :=
  fun hd ↦ by simp [h] at hd

/-- A select that takes up an operation is the select itself, or gives all rows of another one. -/
theorem wrapFor_cases {op : Operation} (h : c.wrapFor op d = .ok (c', d')) :
    c'.select.distinct = false ∧ c'.select.isPaged = false ∨
      c' = c ∧ mustWrap c.select op = false := by
  unfold wrapFor at h
  split at h
  · obtain ⟨_, _, _, _, outer, -, -, ho, rfl⟩ := wrap_ok h
    obtain ⟨exprs, rfl, -⟩ := selectAll_ok ho
    exact .inl ⟨rfl, rfl⟩
  · next merges =>
    obtain ⟨rfl, -⟩ := pure_ok.1 h
    exact .inr ⟨rfl, by simpa using merges⟩

/-- Operations that would see repeated rows read different rows as a derived table. -/
theorem not_distinct_wrapFor {op : Operation} (h : c.wrapFor op d = .ok (c', d'))
    (waits : ∀ s : Select Tree, s.distinct → mustWrap s op) : c'.select.distinct = false := by
  obtain ⟨all, -⟩ | ⟨rfl, merges⟩ := wrapFor_cases h
  · exact all
  · exact Bool.eq_false_iff.2 fun hd ↦ by simp [waits _ hd] at merges

/-- Operations that would change which rows a page has read the page as a derived table. -/
theorem not_isPaged_wrapFor {op : Operation} (h : c.wrapFor op d = .ok (c', d'))
    (waits : ∀ s : Select Tree, s.isPaged → mustWrap s op) : c'.select.isPaged = false := by
  obtain ⟨-, whole⟩ | ⟨rfl, merges⟩ := wrapFor_cases h
  · exact whole
  · exact Bool.eq_false_iff.2 fun hp ↦ by simp [waits _ hp] at merges

theorem SortsOutputs.wrapFor {op : Operation} (hc : SortsOutputs c.select)
    (h : c.wrapFor op d = .ok (c', d')) : SortsOutputs c'.select := by
  obtain ⟨all, -⟩ | ⟨rfl, -⟩ := wrapFor_cases h
  · exact sortsOutputs_of_all all
  · exact hc

theorem SortsOutputs.ordered (hc : SortsOutputs c.select) (isWanted : Bool) :
    SortsOutputs (c.ordered isWanted).select := by
  unfold Compiled.ordered
  split
  · exact fun _ k hk ↦ isOutput_of_mem (mem_of_mem_headerOrder hk)
  · exact hc

theorem SortsOutputs.limit {count : Tree} {isOrdered : Bool} (hc : SortsOutputs c.select)
    (h : c.limit count isOrdered d = .ok (c', d')) : SortsOutputs c'.select := by
  obtain ⟨l, -, rfl⟩ := limit_ok h
  exact SortsOutputs.ordered (c := { c with select := { c.select with limit := some l } }) hc _

theorem SortsOutputs.offset {count : Tree} {isOrdered : Bool} (hc : SortsOutputs c.select)
    (h : c.offset count isOrdered d = .ok (c', d')) : SortsOutputs c'.select := by
  obtain ⟨l, -, rfl⟩ := offset_ok h
  exact SortsOutputs.ordered (c := { c with select := { c.select with offset := some l } }) hc _

/-- What is nested of a select sorts by what the select does. -/
theorem SortsOutputs.derived (hc : SortsOutputs c.select) : SortsOutputs c.derived := by
  unfold Compiled.derived
  split
  · exact hc
  · exact fun _ ↦ nofun

theorem SortsOutputs.withNumbers (hc : SortsOutputs c.select) (number : Tree) :
    SortsOutputs (c.withNumbers number) := by
  intro hd k hk
  simp only [Compiled.withNumbers] at hk
  split at hk
  · have shown : isOutput c.select k := hc hd k hk
    simp only [isOutput, Select.exprs, Compiled.withNumbers, List.map_append,
      List.any_append, Bool.or_eq_true] at shown ⊢
    exact .inl shown
  · cases hk

/-- A select that is to be ordered is, if its header has an order. -/
theorem ordered_orderBy_ne_nil {isWanted : Bool}
    (h : c.select.orderBy ≠ [] ∨ isWanted ∧ headerOrder c.select.exprs c.header ≠ []) :
    (c.ordered isWanted).select.orderBy ≠ [] := by
  unfold Compiled.ordered
  split
  · next wanted =>
    rw [Bool.and_eq_true, List.isEmpty_iff] at wanted
    exact (h.resolve_left (· wanted.2)).2
  · next unwanted =>
    refine fun none ↦ unwanted ?_
    obtain some | ⟨wanted, -⟩ := h
    · exact absurd none some
    · simp [wanted, none]

theorem distinct_ordered (c : Compiled) (isWanted : Bool) :
    (c.ordered isWanted).select.distinct = c.select.distinct := by
  unfold Compiled.ordered
  split <;> rfl

end Compiled

namespace Relation

variable {r : Relation} {server : Server} {strategies : List Strategy}

/-- Every page is one of a page or of an ordered relation. -/
def PagesOrdered (r : Relation) : Prop :=
  ∀ p ∈ r.parts, ∀ (source : Relation) (skip take : Option Scalar), source.IsPage p skip take →
    source.isPaging ∨ source.IsOrdered

theorem PagesOrdered.of_mem_parts {p : Relation} (h : r.PagesOrdered) (hp : p ∈ r.parts) :
    p.PagesOrdered := fun q hq ↦ h q (mem_parts_trans hq hp)

/-- Different rows are sorted by output columns, and pages of them are sorted if pages are of
ordered relations. -/
structure SortsDistinct (r : Relation) (c : Compiled) : Prop where
  outputs : SortsOutputs c.select
  pages : r.PagesOrdered → c.select.distinct → r.isPaging ∨ c.select.isPaged →
    c.select.orderBy ≠ []

namespace SortsDistinct

theorem ofAll (h : c.select.distinct = false) : r.SortsDistinct c :=
  ⟨sortsOutputs_of_all h, fun _ hd ↦ by simp [h] at hd⟩

theorem ofSelectAll {source : Tree} {label : String} {header : Header}
    (h : selectAll source label header d = .ok (c.select, d')) : r.SortsDistinct c := by
  obtain ⟨exprs, same, -⟩ := selectAll_ok h
  exact ofAll (by rw [same])

/-- A page of a select with the columns, the ordering and the header of the source. -/
theorem page_orderBy_ne_nil {p : Relation} {skip take : Option Scalar} (hc : r.SortsDistinct c)
    (h : r.Drafted server d c d') (page : r.IsPage p skip take) (pages : p.PagesOrdered)
    (hd : c.select.distinct) (exprs : c'.select.exprs = c.select.exprs)
    (orderBy : c'.select.orderBy = c.select.orderBy) (header : c'.header = c.header) :
    (c'.ordered !r.isPaging).select.orderBy ≠ [] := by
  refine ordered_orderBy_ne_nil ?_
  rw [exprs, orderBy, header]
  have source : r ∈ p.parts := by cases page <;> exact List.mem_cons_of_mem _ (mem_parts_self r)
  by_cases paging : r.isPaging
  · exact .inl (hc.pages (pages.of_mem_parts source) hd (.inl paging))
  · have ordered := (pages p (mem_parts_self p) r skip take page).resolve_left paging
    exact .inr ⟨by simpa using paging, h.headerOrder_ne_nil ordered⟩

end SortsDistinct

/-- However a relation becomes a select, different rows are sorted by output columns. -/
theorem Drafted.sortsDistinct (h : r.Drafted server d c d') : r.SortsDistinct c := by
  induction h with
  | later _ _ ih => exact ih
  | table h =>
    obtain ⟨_, _, -, hs, -⟩ := ofTable_ok h
    exact .ofSelectAll hs
  | native h =>
    obtain ⟨_, _, _, _, -, -, hs, -⟩ := ofNative_ok h
    exact .ofSelectAll hs
  | filter _ hw hf ih =>
    obtain ⟨_, _, _, -, -, rfl⟩ := filter_ok hf
    have all := not_distinct_wrapFor hw fun s hd ↦ by simp [mustWrap, hd]
    exact .ofAll all
  | project _ hw hp ih =>
    obtain ⟨_, -, rfl⟩ := project_ok hp
    have all := not_distinct_wrapFor hw fun _ hd ↦ hd
    exact .ofAll all
  | extend _ hw he ih =>
    have all := not_distinct_wrapFor hw fun _ hd ↦ hd
    exact .ofAll (by rw [select_extend he]; exact all)
  | join _ _ hj _ _ =>
    obtain ⟨_, _, _, _, _, _, _, _, _, _, _, _, _, -, -, -, -, -, -, -, rfl⟩ := join_ok hj
    exact .ofAll rfl
  | aggregate _ hw ha ih =>
    obtain ⟨_, _, -, -, rfl⟩ := aggregate_ok ha
    have all := not_distinct_wrapFor hw fun s hd ↦ by simp [mustWrap, hd]
    exact .ofAll all
  | sort _ hw hs ih =>
    obtain ⟨orderBy, keys, rfl⟩ := sort_ok hs
    refine ⟨fun _ k hk ↦ ?_, fun _ hd paged ↦ ?_⟩
    · obtain ⟨item, -, t, ht, rfl⟩ := exists_of_mem_forall₂ keys hk
      exact isOutput_of_mem (List.mem_of_getElem? ht)
    · have whole := not_isPaged_wrapFor hw fun _ hp ↦ hp
      cases whole.symm.trans (paged.resolve_left Bool.false_ne_true)
  | distinct _ hw ih =>
    refine ⟨fun _ k hk ↦ (List.mem_filter.1 hk).2, fun _ _ paged ↦ ?_⟩
    have whole := not_isPaged_wrapFor hw fun _ hp ↦ hp
    cases whole.symm.trans (paged.resolve_left Bool.false_ne_true)
  | take _ h _ hl ih =>
    refine ⟨ih.outputs.limit hl, fun pages hd _ ↦ ?_⟩
    obtain ⟨l, -, rfl⟩ := limit_ok hl
    rw [distinct_ordered] at hd
    exact ih.page_orderBy_ne_nil h (.take _) pages hd rfl rfl rfl
  | skip _ h hw _ ho ih =>
    refine ⟨(ih.outputs.wrapFor hw).offset ho, fun pages hd _ ↦ ?_⟩
    obtain ⟨l, -, rfl⟩ := offset_ok ho
    rw [distinct_ordered] at hd
    obtain ⟨all, -⟩ | ⟨rfl, -⟩ := wrapFor_cases hw
    · simp [all] at hd
    · exact ih.page_orderBy_ne_nil h (.skip _) pages hd rfl rfl rfl
  | page _ _ h hw _ ho _ hl ih =>
    refine ⟨((ih.outputs.wrapFor hw).offset ho).limit hl, fun pages hd _ ↦ ?_⟩
    obtain ⟨l, -, rfl⟩ := limit_ok hl
    obtain ⟨l, -, rfl⟩ := offset_ok ho
    rw [distinct_ordered] at hd
    refine ordered_orderBy_ne_nil (.inl ?_)
    obtain ⟨all, -⟩ | ⟨rfl, -⟩ := wrapFor_cases hw
    · simp [distinct_ordered, all] at hd
    · rw [distinct_ordered] at hd
      exact ih.page_orderBy_ne_nil h (.page _ _) pages hd rfl rfl rfl
  | numbered _ _ _ hn ih =>
    obtain ⟨_, _, _, _, _, _, outer, _, _, _, _, _, _, _, _, -, -, -, hs, -, -, -, -, rfl⟩ :=
      numberedPage_ok hn
    obtain ⟨exprs, rfl, -⟩ := selectAll_ok hs
    exact .ofAll rfl
  | lock _ ih =>
    refine ⟨ih.outputs, fun pages hd paged ↦ ?_⟩
    have source := pages.of_mem_parts (List.mem_cons_of_mem _ (mem_parts_self _))
    exact ih.pages source hd (.inr (paged.resolve_left Bool.false_ne_true))

end Relation

/-! ### Orderings that are written -/

namespace Script

variable {w : Script} {s : Select Tree}

/-- ORDER BY clause that is written for a select. -/
def orderText (w : Script) (s : Select Tree) : Writing Chain := do
  let paging ← w.paging? (s.map (partOf id w.tree))
  w.orderClause (s.map (partOf id w.tree)) paging

/-- Whatever is written to order the rows of a select is an ordering by output columns, if it is
not empty. -/
def OrdersByOutputs (w : Script) (s : Select Tree) : Prop :=
  ∀ named chain named', w.orderText s named = .ok (chain, named') → chain.normalized = [] ∨
    ∃ (keys : List (SortKey Tree)) (rest : Chain),
      (∀ k ∈ keys, k.expr ∈ s.exprs) ∧ chain = .text " ORDER BY " :: rest ∧
      w.ordering (keys.map (·.map (partOf id w.tree))) none named = .ok (rest, named')

/-- A select with sort keys is ordered by these. -/
theorem ordersByOutputs_of_ne_nil (ordered : s.orderBy ≠ [])
    (h : ∀ k ∈ s.orderBy, k.expr ∈ s.exprs) :
    w.OrdersByOutputs s := by
  intro named chain named' text
  obtain ⟨paging, _, hp, written⟩ := Writing.bind_ok.1 text
  cases (Writing.lift_ok.1 hp).2
  have clause : w.orderClause (s.map (partOf id w.tree)) paging = (do
      return [Piece.text " ORDER BY "] ++
        (← w.ordering (s.orderBy.map (·.map (partOf id w.tree))) none)) := by
    simp [orderClause, Select.map, ordered]
  rw [clause] at written
  obtain ⟨rest, named₂, hk, written⟩ := Writing.bind_ok.1 written
  cases Writing.pure_ok.1 written
  exact .inr ⟨s.orderBy, rest, h, rfl, hk⟩

/-- A select without sort keys is ordered where an offset is written by OFFSET. -/
theorem orderText_of_nil (unordered : s.orderBy = []) : w.orderText s = (do
    let paging ← w.paging? (s.map (partOf id w.tree))
    if paging = some .offsetFetch then return [.text (← w.spelling.offsetOrdering)]
    else return []) := by
  simp [orderText, orderClause, Select.map, unordered]

end Script

namespace Spelling

theorem PostgreSql.offsetOrdering_eq (v : Version) :
    (PostgreSql.spelling v).offsetOrdering = .ok "" := by
  unfold PostgreSql.spelling
  split <;> split <;> split <;> split <;> rfl

theorem SqlServer.offsetOrdering_eq (v : Version) : (SqlServer.spelling v).offsetOrdering =
    .ok (if v.isSince ⟨11, 0⟩ then " ORDER BY (SELECT NULL)" else "") := by
  unfold SqlServer.spelling
  split <;> split <;> rfl

theorem Oracle.offsetOrdering_eq (v : Version) :
    (Oracle.spelling v).offsetOrdering = .ok "" := by
  unfold Oracle.spelling
  split <;> split <;> split <;> rfl

/-- Only one server has an ordering that is written where a select has none. -/
theorem offsetOrdering_eq {dialect : Dialect} {v : Version}
    (h : ¬(dialect = .sqlServer ∧ v.isSince ⟨11, 0⟩)) :
    (dialect.spelling v).offsetOrdering = .ok "" := by
  cases dialect with
  | postgreSql => exact PostgreSql.offsetOrdering_eq v
  | sqlServer =>
    rw [Dialect.spelling, SqlServer.offsetOrdering_eq, if_neg fun since ↦ h ⟨rfl, since⟩]
  | oracle => exact Oracle.offsetOrdering_eq v

end Spelling

namespace Script

variable {s : Select Tree} {version : Version} {types : TypeNames} {mark : String}

/-- An ordering of the server's own is none by output columns. -/
private theorem not_ordersByOutputs (since : version.isSince ⟨11, 0⟩) (paged : s.isPaged)
    (unordered : s.orderBy = []) :
    ¬OrdersByOutputs ⟨Dialect.sqlServer.spelling version, types, mark⟩ s := by
  let w : Script := ⟨Spelling.SqlServer.spelling version, types, mark⟩
  have pages : (s.map (partOf id w.tree)).isPaged := by
    simpa [Select.isPaged, Select.map] using paged
  have fetched : w.paging? (s.map (partOf id w.tree)) = .ok (some .offsetFetch) := by
    rw [paging?, if_pos pages, Spelling.SqlServer.paging_eq, if_pos since]
    rfl
  have text : w.orderText s [] = .ok ([.text " ORDER BY (SELECT NULL)"], []) := by
    rw [orderText_of_nil unordered, fetched, Spelling.SqlServer.offsetOrdering_eq, if_pos since]
    rfl
  intro h
  obtain empty | ⟨keys, rest, -, same, -⟩ := h _ _ _ text
  · simp [Chain.normalized, Chain.normalizedAfter, Chain.ofText] at empty
  · simp at same

/-- Where a clause limits the rows of a select, the select has limits. -/
private theorem isPaged_of_paging? {w : Script} {paging : PagingClause}
    (h : w.paging? (s.map (partOf id w.tree)) = .ok (some paging)) : s.isPaged := by
  have pages : (s.map (partOf id w.tree)).isPaged = s.isPaged := by
    simp [Select.isPaged, Select.map]
  rw [paging?, pages] at h
  split at h
  · assumption
  · cases h

/-- A select of different rows whose sort keys are output columns is ordered by output columns,
unless it has no keys and a page of it is written with an ordering of the server's own. -/
theorem ordersByOutputs_iff {dialect : Dialect} (h : ∀ k ∈ s.orderBy, k.expr ∈ s.exprs) :
    OrdersByOutputs ⟨dialect.spelling version, types, mark⟩ s ↔
      (dialect = .sqlServer → version.isSince ⟨11, 0⟩ → s.isPaged → s.orderBy ≠ []) := by
  by_cases unordered : s.orderBy = []
  · refine ⟨?_, fun ordered named chain named' text ↦ .inl ?_⟩
    · rintro outputs rfl since paged -
      exact not_ordersByOutputs since paged unordered outputs
    rw [orderText_of_nil unordered] at text
    obtain ⟨paging, _, hp, written⟩ := Writing.bind_ok.1 text
    split at written
    · next fetched =>
      have own : ¬(dialect = .sqlServer ∧ version.isSince ⟨11, 0⟩) := fun own ↦
        ordered own.1 own.2 (isPaged_of_paging? (fetched ▸ (Writing.lift_ok.1 hp).1)) unordered
      rw [Spelling.offsetOrdering_eq own] at written
      cases written
      rfl
    · cases written
      rfl
  · exact ⟨fun _ _ _ _ ↦ unordered, fun _ ↦ ordersByOutputs_of_ne_nil unordered h⟩

end Script

/-! ### Orderings of a statement -/

/-- Every select of different rows in the tree, at any depth, has the property. -/
def Tree.EachDistinct (p : Select Tree → Prop) (t : Tree) : Prop :=
  t.Everywhere fun n ↦ ∀ s, n = .select s → s.distinct → p s

theorem Tree.EachDistinct.mono₂ {p q u : Select Tree → Prop} {t : Tree} (hp : t.EachDistinct p)
    (hq : t.EachDistinct q) (hu : ∀ s, p s → q s → u s) : t.EachDistinct u :=
  (Everywhere.and hp hq).mono fun _ h s hs distinct ↦ hu s (h.1 s hs distinct) (h.2 s hs distinct)

/-- A graph that holds a tree holds what is below each node. -/
theorem Tree.Everywhere.and_holds {g : Graph} {t : Tree} {p : Node Tree → Prop}
    (h : t.Everywhere p) (ht : g.Holds t) :
    t.Everywhere fun n ↦ p n ∧ ∀ c ∈ n.children, g.Holds c := by
  induction h with
  | mk root _ ih =>
    exact .mk ⟨root, fun _ hc ↦ ht.of_mem_children hc⟩ fun c hc ↦ ih c hc (ht.of_mem_children hc)

namespace Relation

variable {r : Relation} {server : Server} {strategies : List Strategy} {s : Statement}

/-- Different rows are sorted by output columns. -/
theorem eachDistinct_sorts_outputs (h : r.statement server strategies = .ok s) :
    s.tree.EachDistinct fun q ↦ ∀ k ∈ q.orderBy, k.expr ∈ q.exprs := by
  have meets : s.tree.Everywhere (Node.Meets ⟨SortsOutputs, fun _ ↦ True, fun _ ↦ True⟩) :=
    statement_everywhere h (fun p _ _ _ _ hd ↦
      { select := hd.sortsDistinct.outputs.derived
        derived := trivial
        numbering := fun _ ↦ trivial
        selectNumbered := hd.sortsDistinct.outputs.withNumbers
        derivedNumbered := fun _ ↦ trivial }) fun hd ↦ hd.sortsDistinct.outputs
  refine (meets.and_holds (statement_holds h)).mono fun n ⟨sorts, held⟩ q hq distinct k hk ↦ ?_
  subst hq
  obtain ⟨t, ht, same⟩ := List.any_eq_true.1 (sorts distinct k hk)
  have key : k.expr ∈ q.children := by simp [Select.children, List.mem_map_of_mem hk]
  have output : t ∈ q.children := by simp [Select.children, ht]
  rw [← (held t output).eq_of_id_eq (held k.expr key) (by simpa using same)]
  exact ht

/-- A page of different rows has sort keys. -/
private def SortsPage (s : Select Tree) : Prop := s.distinct → s.isPaged → s.orderBy ≠ []

private theorem nestsMeeting_sortsPage (hc : SortsPage c.select) (isNumbered : Prop) :
    c.NestsMeeting ⟨SortsPage, fun _ ↦ True, fun _ ↦ True⟩ isNumbered where
  select := by
    unfold Compiled.derived
    split
    · exact hc
    · next whole => exact fun _ paged ↦ absurd paged whole
  derived := trivial
  numbering _ := trivial
  selectNumbered number hd paged := by
    have same : (c.withNumbers number).orderBy = c.select.orderBy := if_pos paged
    rw [same]
    exact hc hd paged
  derivedNumbered _ := trivial

/-- If pages are of ordered relations, pages of different rows have sort keys. -/
theorem eachDistinct_sorts_pages (h : r.statement server strategies = .ok s)
    (pages : r.PagesOrdered) : s.tree.EachDistinct fun q ↦ q.isPaged → q.orderBy ≠ [] := by
  have sortsPage {p : Relation} (hp : p ∈ r.parts) {d d' : Draft} {c : Compiled}
      (hd : p.Drafted server d c d') : SortsPage c.select :=
    fun distinct paged ↦ hd.sortsDistinct.pages (pages.of_mem_parts hp) distinct (.inr paged)
  have meets : s.tree.Everywhere (Node.Meets ⟨SortsPage, fun _ ↦ True, fun _ ↦ True⟩) :=
    statement_everywhere h (fun p hp _ _ _ hd ↦ nestsMeeting_sortsPage (sortsPage hp hd) _)
      (sortsPage (mem_parts_self r))
  exact meets.mono fun n hn q hq ↦ by subst hq; exact hn

/-- Whatever relation is compiled for whatever server, every select of different rows has output
columns for sort keys, and what is written to order its rows is an ordering by output columns,
exactly unless later versions of SQL Server are to write a page of different rows without sort keys.
There are none such if every page is one of an ordered relation. -/
theorem distinct_ordersByOutputs_iff (dialect : Dialect) (version : Version) (types : TypeNames)
    (mark : String) (h : r.statement server strategies = .ok s) :
    (s.tree.EachDistinct fun q ↦ ∀ k ∈ q.orderBy, k.expr ∈ q.exprs) ∧
      (s.tree.EachDistinct (Script.OrdersByOutputs ⟨dialect.spelling version, types, mark⟩) ↔
        (dialect = .sqlServer → version.isSince ⟨11, 0⟩ →
          s.tree.EachDistinct fun q ↦ q.isPaged → q.orderBy ≠ [])) ∧
      (r.PagesOrdered → s.tree.EachDistinct fun q ↦ q.isPaged → q.orderBy ≠ []) := by
  have outputs := eachDistinct_sorts_outputs h
  refine ⟨outputs, ⟨fun written own since ↦ ?_, fun ordered ↦ ?_⟩, eachDistinct_sorts_pages h⟩
  · exact outputs.mono₂ written fun q keys hq ↦ (Script.ordersByOutputs_iff keys).1 hq own since
  · by_cases own : dialect = .sqlServer ∧ version.isSince ⟨11, 0⟩
    · exact outputs.mono₂ (ordered own.1 own.2) fun q keys hq ↦
        (Script.ordersByOutputs_iff keys).2 fun _ _ ↦ hq
    · exact outputs.mono₂ outputs fun q keys _ ↦
        (Script.ordersByOutputs_iff keys).2 fun dialect since ↦ absurd ⟨dialect, since⟩ own

/-- The first of the different rows of a table with some key. -/
def firstDifferent (key : List Nat) : Relation :=
  take (distinct (table ⟨none, "t", [⟨"a", .int32, false⟩, ⟨"b", .int32, false⟩], key⟩))
    (.constant (.integer 5))

/-- Different rows of a table with a key come in the order of the key. -/
theorem distinct_ordersByOutputs_iff_of_firstDifferent :
    ∃ s, (firstDifferent [0]).statement (.capabilities .sqlServer ⟨11, 0⟩) Strategy.standard =
        .ok s ∧
      s.tree.EachDistinct (Script.OrdersByOutputs
        ⟨Dialect.sqlServer.spelling ⟨11, 0⟩, Dialect.sqlServer.typeNames ⟨11, 0⟩, "@"⟩) := by
  obtain ⟨s, hs⟩ : ∃ s, (firstDifferent [0]).statement (.capabilities .sqlServer ⟨11, 0⟩)
      Strategy.standard = .ok s := ⟨_, rfl⟩
  have pages : (firstDifferent [0]).PagesOrdered := by
    intro p hp source skip take page
    simp only [firstDifferent, parts, List.mem_cons, List.not_mem_nil, or_false] at hp
    obtain rfl | rfl | rfl := hp <;> cases page
    exact .inr ⟨⟨0, true⟩, List.mem_singleton_self _, by decide⟩
  obtain ⟨-, ordered, sorted⟩ := distinct_ordersByOutputs_iff .sqlServer ⟨11, 0⟩
    (Dialect.sqlServer.typeNames ⟨11, 0⟩) "@" hs
  exact ⟨s, hs, ordered.2 fun _ _ ↦ sorted pages⟩

/-- Those of a table without a key are ordered by `(SELECT NULL)`, which they do not put out. -/
theorem distinct_ordered_by_null :
    ∃ s q, (firstDifferent []).statement (.capabilities .sqlServer ⟨11, 0⟩) Strategy.standard =
        .ok s ∧
      s.tree.node = .select q ∧ q.distinct ∧
      Script.orderText ⟨Dialect.sqlServer.spelling ⟨11, 0⟩, Dialect.sqlServer.typeNames ⟨11, 0⟩, "@"⟩
        q [] = .ok ([.text " ORDER BY (SELECT NULL)"], []) ∧
      ¬Script.OrdersByOutputs
        ⟨Dialect.sqlServer.spelling ⟨11, 0⟩, Dialect.sqlServer.typeNames ⟨11, 0⟩, "@"⟩ q :=
  ⟨_, _, rfl, rfl, rfl, rfl, Script.not_ordersByOutputs rfl rfl rfl⟩

end Relation

end SqlWright
