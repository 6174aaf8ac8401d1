import SqlWright.Proofs.Meaning.Preservation
import SqlWright.Proofs.Meaning.Sorting

/-!
# Numbered selects

A page by row numbers reads a copy of its source's select that puts out the row numbers as
well. What the source puts out and sorts by never depends on row numbers, so that the copy has
the rows of the source, numbered from one, unless the source has DISTINCT, leaves rows out at the
front or limits rows that it does not order.
-/

namespace SqlWright

variable {V : Type} [DecidableEq V] {I : Interpretation V} {db : Database V} {d d' : Draft}

open Drafting Draft Meaning

/-! ### A column of row numbers -/

namespace Select

variable {s : Select (Meaning V)} {keys : List (SortKey (Meaning V))} {number : Meaning V}
  {name : String}

/-- Select with one more column, without its ordering where that chooses no rows. -/
def withNumbers (s : Select (Meaning V)) (number : Meaning V) (name : String) :
    Select (Meaning V) :=
  { s with
    columns := s.columns ++ [⟨number, some name⟩]
    orderBy := if s.isPaged then s.orderBy else [] }

/-- Places that a select without offset gives records for if it is ordered by the keys. -/
def firstPlaces (I : Interpretation V) (s : Select (Meaning V))
    (keys : List (SortKey (Meaning V))) : List (Place V) :=
  match count? I s.limit with
  | some n => (s.sortedPlaces I keys).take n
  | none => s.sortedPlaces I keys

/-- Row numbers over the keys belong to a select: it is sorted by the keys, or it has no ordering
and the keys are some of its columns. -/
def SortsBy (s : Select (Meaning V)) (keys : List (SortKey (Meaning V))) : Prop :=
  s.orderBy = keys ∨ s.orderBy = [] ∧ ∀ k ∈ keys, k.expr ∈ s.exprs

theorem map_rowNumber_firstPlaces (stable : ∀ k ∈ keys, k.expr.IsStable) :
    (s.firstPlaces I keys).map (rowNumber I keys) =
      (List.range (s.firstPlaces I keys).length).map (· + 1) := by
  have numbers := map_rowNumber_sortedPlaces (I := I) (s := s) stable
  have length : (s.sortedPlaces I keys).length = (s.points I).length := by
    simpa using congrArg List.length numbers
  unfold firstPlaces
  split
  · next n _ =>
    rw [List.map_take, numbers, ← List.map_take, List.take_range, List.length_take, length]
  · rw [numbers, length]

/-- The records of a select that is sorted by the keys are those of its first places, in their
order. -/
theorem records_eq_firstPlaces (hd : s.distinct = false) (ho : s.offset = none)
    (hk : s.orderBy = keys) : s.records I = (s.firstPlaces I keys).map s.record := by
  rw [records_of_limit ho, ordered_eq hd, firstPlaces, hk]
  cases count? I s.limit with
  | none => rfl
  | some n => exact List.map_take.symm

/-- The records of a select are those of its first places, in some order. -/
theorem records_perm_firstPlaces (hd : s.distinct = false) (ho : s.offset = none)
    (paged : s.isPaged → s.orderBy = keys) :
    (s.records I).Perm ((s.firstPlaces I keys).map s.record) := by
  by_cases h : s.isPaged
  · exact .of_eq (records_eq_firstPlaces hd ho (paged h))
  · rw [records_of_limit ho, ordered_eq hd, firstPlaces]
    have none : s.limit = none := by
      simp only [isPaged, Bool.or_eq_true, not_or, Option.not_isSome_iff_eq_none] at h
      exact h.1
    rw [none]
    exact (sortedPlaces_perm.trans sortedPlaces_perm.symm).map s.record

variable (hn : ∀ p, number.value p = I.integer (rowNumber I keys p))
  (ha : number.aggregates = keys.any (·.expr.aggregates))

omit [DecidableEq V] in
include ha in
/-- A column of row numbers leaves the groups as they are. -/
theorem hasGroups_withNumbers (sorts : s.SortsBy keys) :
    (s.withNumbers number name).hasGroups = s.hasGroups := by
  have exprs : (s.withNumbers number name).exprs = s.exprs ++ [number] := by
    simp [withNumbers, Select.exprs]
  have kept : (s.withNumbers number name).orderBy = s.orderBy ∨
      (s.withNumbers number name).orderBy = [] := by
    unfold withNumbers
    split
    · exact .inl rfl
    · exact .inr rfl
  have grouped : (s.withNumbers number name).isGrouped = s.isGrouped := rfl
  rw [Select.hasGroups, Select.hasGroups, grouped, exprs, List.any_append, List.any_cons,
    List.any_nil, Bool.or_false, ha]
  rcases sorts with rfl | ⟨none, columns⟩
  · rcases kept with kept | kept
    · rw [kept]
      cases s.isGrouped <;> cases s.exprs.any (·.aggregates) <;> simp
    · rw [kept]
      simp [Bool.or_assoc]
  · have counted : (s.exprs.any (·.aggregates) || keys.any (·.expr.aggregates)) =
        s.exprs.any (·.aggregates) := by
      rw [Bool.or_eq_left_iff_imp, List.any_eq_true]
      rintro ⟨k, hk, h⟩
      exact List.any_eq_true.2 ⟨k.expr, columns k hk, h⟩
    have unsorted : (s.withNumbers number name).orderBy = [] := by
      rcases kept with kept | kept
      · exact kept.trans none
      · exact kept
    rw [counted, unsorted, none]

include hn ha in
/-- The records of a select with a column of row numbers are those of the first places, each with
the number of its place. -/
theorem records_withNumbers (hc : s.columns ≠ []) (hd : s.distinct = false)
    (ho : s.offset = none) (sorts : s.SortsBy keys) (paged : s.isPaged → s.orderBy = keys) :
    ((s.withNumbers number name).records I).Perm ((s.firstPlaces I keys).map fun p ↦
      s.record p ++ [(name, I.integer (rowNumber I keys p))]) := by
  have places : (s.withNumbers number name).places I = s.places I := by
    have points : (s.withNumbers number name).points I = s.points I := by
      simp only [Select.points, hasGroups_withNumbers ha sorts]
      rfl
    simp only [Select.places, points]
  have record (p : Place V) : (s.withNumbers number name).record p =
      s.record p ++ [(name, I.integer (rowNumber I keys p))] := by
    rw [Select.record, Select.record, if_neg (by simp [withNumbers]), if_neg (by simpa using hc),
      withNumbers, List.map_append, List.map_singleton, hn]
    rfl
  have first : (s.withNumbers number name).firstPlaces I keys = s.firstPlaces I keys := by
    simp only [firstPlaces, sortedPlaces, places]
    rfl
  have perm : ((s.withNumbers number name).records I).Perm
      (((s.withNumbers number name).firstPlaces I keys).map (s.withNumbers number name).record) := by
    refine records_perm_firstPlaces hd ho fun h ↦ ?_
    have paged' : s.isPaged := h
    rw [withNumbers, if_pos paged']
    exact paged paged'
  rw [first] at perm
  exact perm.trans (.of_eq (List.map_congr_left fun p _ ↦ record p))

end Select

/-! ### What a select puts out -/

namespace Compiled

variable {c c' : Compiled}

/-- Output columns and sort keys do not depend on the rows around them. -/
structure IsStable (I : Interpretation V) (db : Database V) (c : Compiled) : Prop where
  exprs : ∀ t ∈ c.select.exprs, (t.meaning I db).IsStable
  orderBy : ∀ k ∈ c.select.orderBy, (k.expr.meaning I db).IsStable

namespace IsStable

theorem draws (hc : c.IsStable I db) (h : c.Draws c') : c'.IsStable I db := by
  refine ⟨fun t ht ↦ hc.exprs t (h.exprs t ht), fun k hk ↦ ?_⟩
  rcases h.orderBy k hk with hk | ht
  · exact hc.orderBy k hk
  · exact hc.exprs k.expr ht

/-- A select of all columns of a row source puts out what it reads there. -/
theorem ofReads {source : Tree} {label : String} {header header' : Header} {s : Select Tree}
    {filter : Option Tree} {orderBy : List (SortKey Tree)}
    (h : selectAll source label header d = .ok (s, d'))
    (ho : ∀ k ∈ orderBy, k.expr ∈ s.exprs ∨ (k.expr.meaning I db).IsStable) :
    IsStable I db ⟨{ s with filter, orderBy }, header'⟩ := by
  have exprs (t : Tree) (ht : t ∈ s.exprs) : (t.meaning I db).IsStable := by
    have reads : List.Forall₂ (Reads I label) (s.exprs.map (Tree.meaning I db)) header.names :=
      reads_selectAll h
    obtain ⟨name, -, read⟩ := exists_of_mem_forall₂ reads.flip (List.mem_map_of_mem ht)
    exact read.isLocal.isStable
  exact ⟨exprs, fun k hk ↦ (ho k hk).elim (exprs k.expr) id⟩

theorem ofSelectAll {source : Tree} {label : String} {header header' : Header} {s : Select Tree}
    (h : selectAll source label header d = .ok (s, d')) : IsStable I db ⟨s, header'⟩ := by
  have stable : IsStable I db ⟨{ s with filter := none, orderBy := [] }, header'⟩ :=
    ofReads h nofun
  obtain ⟨exprs, rfl, -⟩ := selectAll_ok h
  exact stable

theorem wrapFor {op : Operation} (hc : c.IsStable I db) (h : c.wrapFor op d = .ok (c', d')) :
    c'.IsStable I db := by
  unfold Compiled.wrapFor at h
  split at h
  · obtain ⟨query, d₁, source, d₂, outer, -, -, ho, rfl⟩ := wrap_ok h
    exact ofReads ho fun k hk ↦ .inl (mem_of_mem_outerOrder hk)
  · obtain ⟨rfl, -⟩ := pure_ok.1 h
    exact hc

theorem filter {e : Scalar} (hc : c.IsStable I db) (h : c.filter e d = .ok (c', d')) :
    c'.IsStable I db := by
  obtain ⟨condition, d₁, filter, -, -, rfl⟩ := filter_ok h
  exact ⟨hc.exprs, hc.orderBy⟩

theorem extend {columns : List Calculation} (hc : c.IsStable I db)
    (h : c.extend columns d = .ok (c', d')) : c'.IsStable I db := by
  induction columns generalizing c d with
  | nil =>
    obtain ⟨rfl, -⟩ := pure_ok.1 h
    exact hc
  | cons k columns ih =>
    simp only [Compiled.extend, bind_ok] at h
    obtain ⟨expr, d₁, he, h⟩ := h
    refine ih (c := c.appendColumn expr ⟨k.name, k.type⟩) ⟨?_, hc.orderBy⟩ h
    rw [exprs_appendColumn, List.forall_mem_append, List.forall_mem_singleton]
    exact ⟨hc.exprs, (computes_scalar he).isStable hc.exprs⟩

theorem join {left right : Compiled} {type : JoinType} {pairs : List (Nat × Nat)}
    (hl : left.IsStable I db) (hr : right.IsStable I db)
    (h : left.join right type pairs d = .ok (some c, d')) : c.IsStable I db := by
  obtain ⟨l, d₁, r, d₂, leftSource, rightSource, condition, d₃, kind, on, filter, d₄, source,
    hwl, hwr, -, -, -, -, -, rfl⟩ := join_ok h
  refine ⟨fun t ht ↦ ?_, nofun⟩
  rcases mem_exprs_joinColumns ht with ht | ht
  · exact (hl.wrapFor hwl).exprs t ht
  · exact (hr.wrapFor hwr).exprs t ht

theorem aggregate {groupBy : List Nat} {aggregates : List Aggregation} (hc : c.IsStable I db)
    (h : c.aggregate groupBy aggregates d = .ok (c', d')) : c'.IsStable I db := by
  obtain ⟨groups, all, hg, ha, rfl⟩ := aggregate_ok h
  refine ⟨fun t ht ↦ ?_, nofun⟩
  rcases mem_exprs_aggregateColumns ha ht with ht | ⟨a, -, d₁, d₂, ht⟩
  · rcases mem_exprs_groupColumns hg ht with ht | ht
    · cases ht
    · exact hc.exprs t ht
  · intro p p' hp
    rw [value_aggregateExpr ht, value_aggregateExpr ht, hp]

theorem numberedPage {skip take : Option Scalar}
    (h : c.numberedPage skip take d = .ok (c', d')) : c'.IsStable I db := by
  obtain ⟨number, d₁, query, d₂, source, d₃, outer, d₄, row, d₅, low, d₆, high, d₇, filter,
    -, -, -, ho, hr, -, -, -, rfl⟩ := numberedPage_ok h
  refine ofReads ho fun k hk ↦ .inr ?_
  rw [List.mem_singleton] at hk
  subst hk
  intro p p' hp
  rw [show (SortKey.of row true).expr = row from rfl, meaning_node hr]
  have same : p.row = p'.row := congrArg Point.row hp
  change p.row.get I _ _ = p'.row.get I _ _
  rw [same]

end IsStable

end Compiled

open Compiled in
/-- Whatever a relation is made of, its select puts out and sorts by what does not depend on the
rows around. -/
theorem Relation.Drafted.isStable {r : Relation} {server : Server} {c : Compiled}
    (h : r.Drafted server d c d') : c.IsStable I db := by
  induction h with
  | later _ _ ih => exact ih
  | table h =>
    obtain ⟨source, d₁, -, hc, -⟩ := ofTable_ok h
    exact .ofSelectAll hc
  | native h =>
    obtain ⟨query, d₁, source, d₂, -, -, hc, -⟩ := ofNative_ok h
    exact .ofSelectAll hc
  | filter _ hw hf ih => exact (ih.wrapFor hw).filter hf
  | project _ hw hp ih => exact (ih.wrapFor hw).draws (draws_project hp)
  | extend _ hw he ih => exact (ih.wrapFor hw).extend he
  | join _ _ hj ihl ihr => exact ihl.join ihr hj
  | aggregate _ hw ha ih => exact (ih.wrapFor hw).aggregate ha
  | sort _ hw hs ih => exact (ih.wrapFor hw).draws (draws_sort hs)
  | distinct _ hw ih => exact (ih.wrapFor hw).draws (draws_distinct _)
  | take _ _ _ hl ih => exact ih.draws (draws_limit hl)
  | skip _ _ hw _ ho ih => exact (ih.wrapFor hw).draws (draws_offset ho)
  | page _ _ _ hw _ ho _ hl ih =>
    exact ((ih.wrapFor hw).draws (draws_offset ho)).draws (draws_limit hl)
  | numbered _ _ _ hn _ => exact .numberedPage hn
  | lock _ ih => exact ⟨ih.exprs, ih.orderBy⟩

/-! ### Pages -/

namespace Compiled

variable {c c' : Compiled}

/-- What the keys of the row numbers denote. -/
def numberingKeys (I : Interpretation V) (db : Database V) (c : Compiled) :
    List (SortKey (Meaning V)) :=
  c.numberingOrder.map (·.map (Tree.meaning I db))

theorem sortsBy_numberingKeys (I : Interpretation V) (db : Database V) (c : Compiled) :
    (c.denoted I db).SortsBy (c.numberingKeys I db) := by
  rcases c.numberingOrder_eq with ⟨-, h⟩ | ⟨none, h⟩
  · exact .inl (congrArg _ h.symm)
  · refine .inr ⟨congrArg _ none, fun k hk ↦ ?_⟩
    obtain ⟨k', hk', rfl⟩ := List.mem_map.1 hk
    rw [exprs_denoted]
    exact List.mem_map_of_mem (h k' hk')

theorem stable_numberingKeys (hc : c.IsStable I db) :
    ∀ k ∈ c.numberingKeys I db, k.expr.IsStable := by
  intro k hk
  obtain ⟨k', hk', rfl⟩ := List.mem_map.1 hk
  rcases c.numberingOrder_eq with ⟨-, h⟩ | ⟨-, h⟩
  · exact hc.orderBy k' (h ▸ hk')
  · exact hc.exprs k'.expr (h k' hk')

theorem denoted_withNumbers (c : Compiled) (number : Tree) :
    (c.withNumbers number).map (Tree.meaning I db) =
      (c.denoted I db).withNumbers (number.meaning I db) c.numberName := by
  have paged : (c.denoted I db).isPaged = c.select.isPaged := isPaged_denoted
  rw [Select.withNumbers, paged, withNumbers]
  split
  · simp [denoted, Select.map, OutputColumn.map]
  · simp [denoted, Select.map, OutputColumn.map]

/-- The select can be numbered as it is: it has columns, keeps repeated rows, leaves out no rows
at the front and has an ordering where it limits rows. -/
structure IsNumberable (c : Compiled) : Prop where
  columns : c.select.columns ≠ []
  distinct : c.select.distinct = false
  offset : c.select.offset = none
  ordered : c.select.limit.isSome → c.select.orderBy ≠ []

theorem IsNumberable.paged (h : c.IsNumberable) (hp : (c.denoted I db).isPaged) :
    (c.denoted I db).orderBy = c.numberingKeys I db := by
  rw [isPaged_denoted, Select.isPaged, h.offset, Option.isSome_none, Bool.or_false] at hp
  rcases c.numberingOrder_eq with ⟨-, same⟩ | ⟨none, -⟩
  · exact congrArg _ same.symm
  · exact absurd none (h.ordered hp)

/-- The records of a numberable select are those of its first places, in some order. -/
theorem IsNumberable.records_perm (h : c.IsNumberable) : ((c.denoted I db).records I).Perm
    (((c.denoted I db).firstPlaces I (c.numberingKeys I db)).map (c.denoted I db).record) :=
  Select.records_perm_firstPlaces h.distinct (congrArg (Option.map _) h.offset) h.paged

/-- The records of a numberable select with an ordering are those of its first places, in their
order. -/
theorem IsNumberable.records_eq (h : c.IsNumberable) (ho : c.select.orderBy ≠ []) :
    (c.denoted I db).records I =
      ((c.denoted I db).firstPlaces I (c.numberingKeys I db)).map (c.denoted I db).record := by
  refine Select.records_eq_firstPlaces h.distinct (congrArg (Option.map _) h.offset) ?_
  rcases c.numberingOrder_eq with ⟨-, same⟩ | ⟨none, -⟩
  · exact congrArg _ same.symm
  · exact absurd none ho

/-- The numbered copy of a select has the records of its first places, numbered from one in the
order of the places. -/
theorem IsNumberable.records_numbered (h : c.IsNumberable) (stable : c.IsStable I db)
    {number query : Tree} {d₁ d₂ d₃ : Draft}
    (hn : node (.rowNumber c.numberingOrder) d = .ok (number, d₁))
    (hq : node (.select (c.withNumbers number)) d₂ = .ok (query, d₃)) :
    (query.records I db).Perm ((((c.denoted I db).firstPlaces I (c.numberingKeys I db)).map
      (c.denoted I db).record).mapIdx fun k r ↦ r ++ [(c.numberName, I.integer (k + 1 : Nat))]) := by
  have meaning : number.meaning I db = .ofNode I db (.rowNumber (c.numberingKeys I db)) :=
    meaning_node hn
  have value (p : Place V) : (number.meaning I db).value p =
      I.integer (rowNumber I (c.numberingKeys I db) p) := by
    rw [meaning]
    rfl
  have aggregates : (number.meaning I db).aggregates =
      (c.numberingKeys I db).any (·.expr.aggregates) := by
    rw [meaning]
    simp [ofNode, ofExpression, Node.children, Function.comp_def]
  have records : query.records I db =
      ((c.denoted I db).withNumbers (number.meaning I db) c.numberName).records I := by
    rw [← denoted_withNumbers, Tree.records, meaning_node hq]
    rfl
  have numbered : (((c.denoted I db).withNumbers (number.meaning I db) c.numberName).records I).Perm
      (((c.denoted I db).firstPlaces I (c.numberingKeys I db)).map fun p ↦ (c.denoted I db).record p ++
        [(c.numberName, I.integer (rowNumber I (c.numberingKeys I db) p))]) :=
    Select.records_withNumbers value aggregates (columns_denoted.2 h.columns) h.distinct
      (congrArg (Option.map _) h.offset) (c.sortsBy_numberingKeys I db) h.paged
  rw [records]
  refine numbered.trans (.of_eq (List.ext_getElem (by simp) fun i hi hi' ↦ ?_))
  have number_eq := Select.map_rowNumber_firstPlaces (I := I) (s := c.denoted I db)
    (stable_numberingKeys stable)
  rw [List.length_map] at hi
  have place : rowNumber I (c.numberingKeys I db)
      (((c.denoted I db).firstPlaces I (c.numberingKeys I db))[i]) = i + 1 := by
    have counted := congrArg (·[i]?) number_eq
    simpa [hi] using counted
  simp only [List.getElem_map, List.getElem_mapIdx, place]

end Compiled

namespace Relation

variable {server : Server} {strategies : List Strategy} {source : Relation} {c c' : Compiled}
  {leaving taking : Option Scalar}

/-- A page by row numbers of a numberable select reads a derived table that has the rows of the
select, each as often as the select has it, and numbers them from one. -/
theorem numberedPage_numbers_rows (I : Interpretation V) (db : Database V) {d₁ : Draft}
    (hs : source.draft server strategies d = .ok (some c, d₁)) (hc : c.IsNumberable)
    (hp : c.numberedPage leaving taking d₁ = .ok (c', d')) :
    ∃ query label, c'.select.source.map Tree.node = some (.queryRef query label) ∧
      ∃ rows : List (Record V), rows.Perm ((c.denoted I db).records I) ∧
        (query.records I db).Perm
          (rows.mapIdx fun k row ↦ row ++ [(c.numberName, I.integer (k + 1 : Nat))]) := by
  have stable : c.IsStable I db := (drafted_of_draft hs).isStable
  obtain ⟨number, d₂, query, d₃, derived, d₄, outer, d₅, row, d₆, low, d₇, high, d₈, filter,
    hn, hq, hsource, ho, -, -, -, -, rfl⟩ := Compiled.numberedPage_ok hp
  refine ⟨query, aliasName d₂.aliases, ?_, _, hc.records_perm.symm,
    hc.records_numbered stable hn hq⟩
  obtain ⟨exprs, rfl, -⟩ := Compiled.selectAll_ok ho
  rw [(node_ok.1 hsource).1]
  rfl

/-- The first rows of a table, of which a server that cannot leave out rows leaves out one. -/
theorem numberedPage_numbers_rows_of_limited : ∃ c d₁ c' d',
    (take (table valueTable) (.constant (.integer 2))).draft (.capabilities .sqlServer ⟨9, 0⟩)
      Strategy.standard {} = .ok (some c, d₁) ∧ c.IsNumberable ∧
    c.numberedPage (some (.constant (.integer 1))) none d₁ = .ok (c', d') ∧
    ∃ query label, c'.select.source.map Tree.node = some (.queryRef query label) ∧
      ∃ rows : List (Record (Option Int)),
        rows.Perm ((c.denoted (.integers fun _ ↦ none) twoSevens).records
          (.integers fun _ ↦ none)) ∧
        (query.records (.integers fun _ ↦ none) twoSevens).Perm
          (rows.mapIdx fun k row ↦ row ++ [(c.numberName, some ((k + 1 : Nat) : Int))]) := by
  obtain ⟨c, d₁, c', d', hc, numberable, hc'⟩ : ∃ c d₁ c' d', (take (table valueTable)
      (.constant (.integer 2))).draft (.capabilities .sqlServer ⟨9, 0⟩) Strategy.standard {} =
        .ok (some c, d₁) ∧ c.IsNumberable ∧
      c.numberedPage (some (.constant (.integer 1))) none d₁ = .ok (c', d') :=
    ⟨_, _, _, _, rfl, ⟨nofun, rfl, rfl, fun _ ↦ nofun⟩, rfl⟩
  exact ⟨c, d₁, c', d', hc, numberable, hc', numberedPage_numbers_rows _ _ hc numberable hc'⟩

/-- Repeated values get different numbers, so that DISTINCT keeps all of them: the derived table
of a page of two values has three rows. -/
theorem numbers_differ_of_distinct : ∃ c d₁ c' d',
    (distinct (project (table valueTable) [1])).draft (.capabilities .sqlServer ⟨9, 0⟩)
      Strategy.standard {} = .ok (some c, d₁) ∧
    c.numberedPage (some (.constant (.integer 1))) none d₁ = .ok (c', d') ∧
    ∃ query label, c'.select.source.map Tree.node = some (.queryRef query label) ∧
      ¬∃ rows : List (Record (Option Int)),
        rows.Perm ((c.denoted (.integers fun _ ↦ none) twoSevens).records
          (.integers fun _ ↦ none)) ∧
        (query.records (.integers fun _ ↦ none) twoSevens).Perm
          (rows.mapIdx fun k row ↦ row ++ [(c.numberName, some ((k + 1 : Nat) : Int))]) := by
  refine ⟨_, _, _, _, rfl, rfl, _, _, rfl, ?_⟩
  rintro ⟨rows, hrows, hquery⟩
  have length := hquery.length_eq
  rw [List.length_mapIdx, hrows.length_eq] at length
  refine absurd length ?_
  cbv

end Relation

end SqlWright
