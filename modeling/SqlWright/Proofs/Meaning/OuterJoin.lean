import SqlWright.Proofs.Drafting.Outcome
import SqlWright.Proofs.Meaning.Preservation

/-!
# Outer joins

A relation of tables, filters, projections, calculations and joins becomes a single select:
the row sources of its tables are joined, and each column is computed from the joined row. A
left row that matches nothing has no aliases of the right side, so what the columns of that
side give is what they compute from NULL. The select is the outer join of the relation where
that is NULL, which calculations may spoil.
-/

namespace SqlWright

variable {V : Type} [DecidableEq V] {I : Interpretation V} {db : Database V} {d d' : Draft}

open Drafting Draft Meaning

namespace Compiled

variable {c c' : Compiled} {rows : List (List V)} {absent : List V} {labels : List String}

/-- The select computes the rows one by one from those of its row source, and nothing in it
makes an operation wait; without a row, its columns have the values `absent`. -/
structure Rowwise (I : Interpretation V) (db : Database V) (rows : List (List V))
    (absent : List V) (labels : List String) (c : Compiled) : Prop where
  unpaged : c.select.isPaged = false
  plain : c.select.distinct = false
  unlocked : c.select.lock = none
  flat : (c.denoted I db).IsFlat labels
  rows : (((c.denoted I db).kept I).map (c.denoted I db).rowValues).Perm rows
  absent : (c.denoted I db).rowValues [] = absent

theorem Rowwise.ungrouped (hc : c.Rowwise I db rows absent labels) :
    c.select.isGrouped = false := by
  rw [← isGrouped_denoted (I := I)]
  exact hc.flat.grouped

/-- A select that computes its rows one by one is not wrapped. -/
theorem Rowwise.wrapFor {op : Operation} (hc : c.Rowwise I db rows absent labels)
    (h : c.wrapFor op d = .ok (c', d')) : c' = c ∧ d' = d := by
  have limit : c.select.limit = none := by
    have unpaged := hc.unpaged
    simp only [Select.isPaged, Bool.or_eq_false_iff, Option.isSome_eq_false_iff,
      Option.isNone_iff_eq_none] at unpaged
    exact unpaged.1
  have merges : mustWrap c.select op = false := by
    cases op <;> simp [mustWrap, hc.unpaged, hc.plain, hc.ungrouped, hc.unlocked, limit]
  unfold Compiled.wrapFor at h
  rw [merges, if_neg Bool.false_ne_true] at h
  obtain ⟨rfl, rfl⟩ := pure_ok.1 h
  exact ⟨rfl, rfl⟩

/-- A stored table computes its rows one by one, and NULL without a row. -/
theorem rowwise_ofTable {t : Table} (built : t.IsBuilt) (h : ofTable t d = .ok (c, d')) :
    c.Rowwise I db ((Relation.table t).rows I db) (.replicate t.columns.length I.null)
      [aliasName d.aliases] := by
  obtain ⟨columns, nodup⟩ := built.names_nodup
  obtain ⟨source, d₁, hs, hc, hh⟩ := ofTable_ok h
  have yields : c.Yields I db ((Relation.table t).rows I db) [aliasName d.aliases] :=
    yields_ofTable columns nodup h
  have reads : List.Forall₂ (Reads I (aliasName d.aliases)) (c.denoted I db).exprs
      (t.columns.map (·.name)) := by
    rw [exprs_denoted, ← names_ofTable nodup]
    exact reads_selectAll hc
  obtain ⟨exprs, hselect, -⟩ := selectAll_ok hc
  have flat : (c.denoted I db).IsFlat [aliasName d.aliases] :=
    yields.flat (by rw [hselect]; rfl)
  have plain : c.select.distinct = false := by rw [hselect]
  refine ⟨yields.unpaged, plain, by rw [hselect], flat, ?_, ?_⟩
  · rw [← flat.outputs (columns_denoted.2 yields.columns)]
    exact yields.outputs plain
  · refine List.eq_replicate_iff.2 ⟨?_, fun v hv ↦ ?_⟩
    · rw [Select.rowValues, List.length_map, reads.length_eq, List.length_map]
    · obtain ⟨m, hm, rfl⟩ := List.mem_map.1 hv
      obtain ⟨name, -, read⟩ := exists_of_mem_forall₂ reads.flip hm
      rw [read.value]
      rfl

/-- A filter leaves the columns as they are. -/
theorem Rowwise.filter {e : Scalar} (hc : c.Rowwise I db rows absent labels)
    (h : c.filter e d = .ok (c', d')) :
    c'.Rowwise I db (rows.filter fun row ↦ I.holds (e.value I row)) absent labels := by
  obtain ⟨t, rfl, ht, holds⟩ := filter_meaning hc.flat h
  obtain ⟨flat, kept⟩ := hc.flat.kept_filter ht (fun row ↦ I.holds (e.value I row)) holds
  refine ⟨hc.unpaged, hc.plain, hc.unlocked, flat, ?_, hc.absent⟩
  have filtered := hc.rows.filter fun row ↦ I.holds (e.value I row)
  rw [List.filter_map] at filtered
  exact (List.Perm.of_eq (congrArg _ kept)).trans filtered

/-- Columns computed from those of the select are computed without a row as well. -/
theorem Rowwise.withColumns {columns : List (OutputColumn Tree)} {header : Header}
    {f : List V → List V} (hc : c.Rowwise I db rows absent labels)
    (computed : ∀ k ∈ columns, ∃ g, k.expr.Computes I db c.select.exprs g)
    (hf : ∀ p, columns.map (fun k ↦ (k.expr.meaning I db).value p) =
      f (c.select.exprs.map fun t ↦ (t.meaning I db).value p)) :
    Rowwise I db (rows.map f) (f absent) labels ⟨{ c.select with columns }, header⟩ := by
  let s := denoted I db ⟨{ c.select with columns }, header⟩
  have exprs : s.exprs = columns.map fun k ↦ k.expr.meaning I db := by
    rw [show s.exprs = _ from exprs_denoted, Select.exprs, List.map_map]
    rfl
  have local_exprs : ∀ t ∈ c.select.exprs, (t.meaning I db).IsLocal labels := by
    intro t ht
    apply hc.flat.exprs
    rw [exprs_denoted]
    exact List.mem_map_of_mem ht
  have flat : s.IsFlat labels := by
    refine ⟨hc.flat.grouped, fun m hm ↦ ?_, hc.flat.orderBy, hc.flat.filter, hc.flat.source⟩
    rw [exprs] at hm
    obtain ⟨k, hk, rfl⟩ := List.mem_map.1 hm
    obtain ⟨g, hg⟩ := computed k hk
    exact hg.isLocal local_exprs
  have values (row : Scope V) : s.rowValues row = f ((c.denoted I db).rowValues row) := by
    rw [Select.rowValues, exprs, List.map_map, Select.rowValues, values_denoted]
    exact hf (.ofRow row)
  refine ⟨hc.unpaged, hc.plain, hc.unlocked, flat, ?_, ?_⟩
  · have mapped := hc.rows.map f
    rw [List.map_map] at mapped
    refine (List.Perm.of_eq (List.map_congr_left fun row _ ↦ ?_)).trans mapped
    exact values row
  · rw [← hc.absent]
    exact values []

theorem Rowwise.project {columns : List Nat} (hc : c.Rowwise I db rows absent labels)
    (h : c.project columns = .ok c') :
    c'.Rowwise I db (rows.map fun row ↦ columns.map (I.at row)) (columns.map (I.at absent))
      labels := by
  obtain ⟨chosen, hc', -, computes, values⟩ := computes_project I db h
  rw [hc']
  exact hc.withColumns computes values

theorem Rowwise.appendColumn {t : Tree} {info : HeaderColumn} {f : List V → V}
    (hc : c.Rowwise I db rows absent labels) (ht : t.Computes I db c.select.exprs f) :
    (c.appendColumn t info).Rowwise I db (rows.map fun row ↦ row ++ [f row])
      (absent ++ [f absent]) labels :=
  hc.withColumns (computes_appendColumn ht).1 (computes_appendColumn ht).2

theorem Rowwise.extend {columns : List Calculation} (hc : c.Rowwise I db rows absent labels)
    (h : c.extend columns d = .ok (c', d')) :
    c'.Rowwise I db (rows.map (Calculation.extendRow I · columns))
      (Calculation.extendRow I absent columns) labels := by
  induction columns generalizing c d rows absent with
  | nil =>
    obtain ⟨rfl, -⟩ := pure_ok.1 h
    simpa [Calculation.extendRow] using hc
  | cons k columns ih =>
    simp only [Compiled.extend, bind_ok] at h
    obtain ⟨expr, d₁, he, h⟩ := h
    have extended := ih (hc.appendColumn (computes_scalar he)) h
    rw [List.map_map] at extended
    exact extended

/-- A join computes the rows of the join one by one, where an outer join asks that the right
side reads NULL without a row. -/
theorem Rowwise.join {left right : Compiled} {leftRows rightRows : List (List V)}
    {leftAbsent rightAbsent : List V} {leftLabels rightLabels : List String} {type : JoinType}
    {pairs : List (Nat × Nat)} {width : Nat} (hl : left.Rowwise I db leftRows leftAbsent leftLabels)
    (hr : right.Rowwise I db rightRows rightAbsent rightLabels) (named : right.Named)
    (disjoint : leftLabels.Disjoint rightLabels)
    (one : I.holds (I.binary .eq (I.literal (.integer 1)) (I.literal (.integer 1))))
    (nulls : type = .leftOuter → rightAbsent = .replicate width I.null)
    (h : left.join right type pairs d = .ok (some c, d')) :
    c.Rowwise I db (Relation.joinedRows I type pairs width leftRows rightRows)
      (leftAbsent ++ rightAbsent) (leftLabels ++ rightLabels) := by
  obtain ⟨l, d₁, r, d₂, leftSource, rightSource, condition, d₃, kind, on, filter, d₄, source,
    hwl, hwr, hls, hrs, hcond, hparts, hs, rfl⟩ := join_ok h
  obtain ⟨rfl, rfl⟩ := hl.wrapFor hwl
  obtain ⟨rfl, rfl⟩ := hr.wrapFor hwr
  let header := (joinColumns l r).header.withOrder (joinOrder l.header r.header)
  obtain ⟨flat, kept⟩ := kept_sideBySide header width hl.flat hr.flat named disjoint hls hrs hcond
    hparts hs fun outer ↦ ⟨one, hr.absent.trans (nulls outer)⟩
  refine ⟨rfl, rfl, rfl, flat, ?_, ?_⟩
  · refine (List.Perm.of_eq kept).trans ?_
    exact Relation.joinedRows_perm hl.rows hr.rows type pairs width
  · have exprs : ((sideBySide l r source filter header).denoted I db).exprs =
        (l.denoted I db).exprs ++ (r.denoted I db).exprs := by
      rw [exprs_denoted, exprs_sideBySide named, List.map_append, exprs_denoted, exprs_denoted]
    rw [← hl.absent, ← hr.absent]
    change ((sideBySide l r source filter header).denoted I db).rowValues [] = _
    rw [Select.rowValues, exprs, List.map_append]
    rfl

/-- A select with columns that computes its rows one by one gives these rows. -/
theorem Rowwise.records (hc : c.Rowwise I db rows absent labels) (columns : absent ≠ []) :
    (((c.denoted I db).records I).map Record.values).Perm rows := by
  have some : (c.denoted I db).columns ≠ [] := by
    intro none
    apply columns
    rw [← hc.absent, Select.rowValues, Select.exprs, none]
    rfl
  have outputs : (c.denoted I db).rows I = (c.denoted I db).outputs I := by
    rw [Select.rows, if_neg]
    simpa [denoted, Select.map] using hc.plain
  rw [Select.records_of_unpaged (isPaged_denoted.trans hc.unpaged)]
  refine Select.values_ordered_perm.trans ?_
  rw [outputs, hc.flat.outputs some]
  exact hc.rows

end Compiled

omit [DecidableEq V] in
theorem Calculation.length_extendRow (row : List V) (columns : List Calculation) :
    (Calculation.extendRow I row columns).length = row.length + columns.length := by
  induction columns generalizing row with
  | nil => rfl
  | cons k columns ih =>
    have next := ih (row ++ [k.expr.value I row])
    rw [List.length_append, List.length_singleton, extendRow] at next
    rw [List.length_cons, extendRow, List.foldl_cons]
    omega

namespace Relation

open Compiled

variable {r a b : Relation} {server : Server} {strategies : List Strategy} {c : Compiled}

/-- The relation is made from built tables by filters, projections onto different positions,
calculations and joins. -/
def IsJoined : Relation → Prop
  | table t => t.IsBuilt
  | filter r _ | extend r _ => r.IsJoined
  | project r columns => columns.Nodup ∧ r.IsJoined
  | join a b _ _ => a.IsJoined ∧ b.IsJoined
  | native _ _ | aggregate _ _ _ | sort _ _ | distinct _ | take _ _ | skip _ _ | page _ _ _
  | lock _ _ => False

/-- What the columns give where no row of the tables is read: NULL for the columns of tables,
and for the others what they compute from that. -/
def absentRow (I : Interpretation V) : Relation → List V
  | table t => .replicate t.columns.length I.null
  | filter r _ => r.absentRow I
  | project r columns => columns.map (I.at (r.absentRow I))
  | extend r columns => Calculation.extendRow I (r.absentRow I) columns
  | join a b _ _ => a.absentRow I ++ b.absentRow I
  | native _ _ | aggregate _ _ _ | sort _ _ | distinct _ | take _ _ | skip _ _ | page _ _ _
  | lock _ _ => []

/-- The right side of every outer join gives NULL where it has no row. -/
def ExtendsNull (I : Interpretation V) : Relation → Prop
  | table _ | native _ _ => True
  | filter r _ | project r _ | extend r _ | aggregate r _ _ | sort r _ | distinct r | take r _
  | skip r _ | page r _ _ | lock r _ => r.ExtendsNull I
  | join a b type _ => a.ExtendsNull I ∧ b.ExtendsNull I ∧
      (type = .leftOuter → b.absentRow I = .replicate b.width I.null)

theorem IsJoined.of_mem_parts {p : Relation} (h : r.IsJoined) (hp : p ∈ r.parts) : p.IsJoined := by
  refine passes_to_parts (fun r h ↦ ?_) h hp
  cases r with
  | native _ _ | take _ _ | skip _ _ | page _ _ _ | lock _ _ | aggregate _ _ _ | sort _ _
  | distinct _ => exact h.elim
  | table _ => exact List.forall_mem_nil _
  | join _ _ _ _ => simpa [sources] using And.intro h.1 h.2
  | filter _ _ | extend _ _ => exact List.forall_mem_singleton.2 h
  | project _ _ => exact List.forall_mem_singleton.2 h.2

/-- A server that compiles operations by clauses of their own takes all of these. -/
theorem IsJoined.taken (h : r.IsJoined) (native : .native ∈ strategies) :
    r.Taken server strategies := by
  induction r with
  | native _ _ | take _ _ _ | skip _ _ _ | page _ _ _ _ | lock _ _ _ | aggregate _ _ _ _
  | sort _ _ _ | distinct _ _ => exact h.elim
  | table _ => exact native
  | filter _ _ ih | extend _ _ ih => exact ⟨native, ih h⟩
  | project _ _ ih => exact ⟨native, ih h.2⟩
  | join _ _ _ _ iha ihb => exact ⟨native, iha h.1, ihb h.2⟩

omit [DecidableEq V] in
theorem length_absentRow (h : r.IsJoined) : (r.absentRow I).length = r.width := by
  induction r with
  | native _ _ | take _ _ _ | skip _ _ _ | page _ _ _ _ | lock _ _ _ | aggregate _ _ _ _
  | sort _ _ _ | distinct _ _ => exact h.elim
  | table _ => exact List.length_replicate
  | filter _ _ ih => exact ih h
  | project _ _ _ => exact List.length_map _
  | extend r columns ih =>
    rw [absentRow, Calculation.length_extendRow, ih h]
    rfl
  | join a b _ _ iha ihb => rw [absentRow, List.length_append, iha h.1, ihb h.2, width]

omit [DecidableEq V] in
/-- Without calculations every column is one of a table, which is NULL without a row. -/
theorem absentRow_of_stored (h : r.IsJoined) (stored : ∀ s columns, extend s columns ∉ r.parts) :
    r.absentRow I = .replicate r.width I.null := by
  induction r with
  | native _ _ | take _ _ _ | skip _ _ _ | page _ _ _ _ | lock _ _ _ | aggregate _ _ _ _
  | sort _ _ _ | distinct _ _ => exact h.elim
  | table _ => rfl
  | extend r columns _ => exact (stored r columns (mem_parts_self _)).elim
  | filter r _ ih => exact ih h fun s columns hs ↦ stored s columns (List.mem_cons_of_mem _ hs)
  | project r columns ih =>
    have source := ih h.2 fun s columns hs ↦ stored s columns (List.mem_cons_of_mem _ hs)
    have read (i : Nat) : I.at (r.absentRow I) i = I.null := by
      rw [source, Interpretation.at, List.getD_eq_getElem?_getD, List.getElem?_replicate]
      split <;> rfl
    rw [absentRow, width, ← List.map_const']
    exact List.map_congr_left fun i _ ↦ read i
  | join a b _ _ iha ihb =>
    have left := iha h.1 fun s columns hs ↦
      stored s columns (List.mem_cons_of_mem _ (List.mem_append_left _ hs))
    have right := ihb h.2 fun s columns hs ↦
      stored s columns (List.mem_cons_of_mem _ (List.mem_append_right _ hs))
    rw [absentRow, left, right, List.replicate_append_replicate, width]

omit [DecidableEq V] in
/-- Without calculations the right side of every outer join gives NULL where it has no row. -/
theorem extendsNull_of_stored (h : r.IsJoined) (stored : ∀ s columns, extend s columns ∉ r.parts) :
    r.ExtendsNull I := by
  induction r with
  | native _ _ | take _ _ _ | skip _ _ _ | page _ _ _ _ | lock _ _ _ | aggregate _ _ _ _
  | sort _ _ _ | distinct _ _ => exact h.elim
  | table _ => trivial
  | extend r columns _ => exact (stored r columns (mem_parts_self _)).elim
  | filter r _ ih => exact ih h fun s columns hs ↦ stored s columns (List.mem_cons_of_mem _ hs)
  | project r _ ih => exact ih h.2 fun s columns hs ↦ stored s columns (List.mem_cons_of_mem _ hs)
  | join a b _ _ iha ihb =>
    have left (s : Relation) (columns : List Calculation) : extend s columns ∉ a.parts :=
      fun hs ↦ stored s columns (List.mem_cons_of_mem _ (List.mem_append_left _ hs))
    have right (s : Relation) (columns : List Calculation) : extend s columns ∉ b.parts :=
      fun hs ↦ stored s columns (List.mem_cons_of_mem _ (List.mem_append_right _ hs))
    exact ⟨iha h.1 left, ihb h.2 right, fun _ ↦ absentRow_of_stored h.2 right⟩

/-- The select of such a relation computes its rows one by one, if the right sides of outer joins
give NULL where they have no row. -/
theorem Drafted.rowwise (h : r.Drafted server d c d') (joined : r.IsJoined)
    (one : I.holds (I.binary .eq (I.literal (.integer 1)) (I.literal (.integer 1))))
    (nulls : r.ExtendsNull I) :
    ∃ labels, c.Rowwise I db (r.rows I db) (r.absentRow I) labels ∧ Given d d' labels := by
  have named {p : Relation} {d d' : Draft} {c : Compiled} (h : p.Drafted server d c d')
      (joined : p.IsJoined) : c.Named :=
    h.named (fun _ _ hn ↦ (joined.of_mem_parts hn).elim) fun _ _ hp ↦ (joined.of_mem_parts hp).1
  induction h with
  | later g h ih =>
    obtain ⟨labels, rowwise, given⟩ := ih joined nulls
    exact ⟨labels, rowwise, given.mono g.aliases le_rfl⟩
  | @table t d d' c h =>
    obtain ⟨source, d₁, hs, hc, -⟩ := ofTable_ok h
    refine ⟨_, rowwise_ofTable joined h, fun l hl ↦ ?_⟩
    have grown := ((growing_selectAll _ _ _).grows hc).aliases
    rw [(node_ok.1 hs).2] at grown
    exact ⟨d.aliases, le_rfl, grown, List.mem_singleton.1 hl⟩
  | filter h hw hf ih =>
    obtain ⟨labels, rowwise, given⟩ := ih joined nulls
    obtain ⟨rfl, rfl⟩ := rowwise.wrapFor hw
    exact ⟨labels, rowwise.filter hf,
      given.mono le_rfl ((growing_filter _ _).grows hf).aliases⟩
  | project h hw hp ih =>
    obtain ⟨labels, rowwise, given⟩ := ih joined.2 nulls
    obtain ⟨rfl, rfl⟩ := rowwise.wrapFor hw
    exact ⟨labels, rowwise.project hp, given⟩
  | extend h hw he ih =>
    obtain ⟨labels, rowwise, given⟩ := ih joined nulls
    obtain ⟨rfl, rfl⟩ := rowwise.wrapFor hw
    exact ⟨labels, rowwise.extend he,
      given.mono le_rfl ((growing_extend _ _).grows he).aliases⟩
  | join ha hb hj iha ihb =>
    obtain ⟨leftLabels, left, givenL⟩ := iha joined.1 nulls.1
    obtain ⟨rightLabels, right, givenR⟩ := ihb joined.2 nulls.2.1
    have grownL := ha.grows.aliases
    have grownR := hb.grows.aliases
    have grown := ((growing_join _ _ _ _).grows hj).aliases
    refine ⟨_, left.join right (named hb joined.2) (givenL.disjoint givenR le_rfl) one nulls.2.2 hj,
      fun l hl ↦ ?_⟩
    rcases List.mem_append.1 hl with hl | hl
    · exact givenL.mono le_rfl (grownR.trans grown) l hl
    · exact givenR.mono grownL grown l hl
  | native _ | aggregate _ _ _ _ | sort _ _ _ _ | distinct _ _ _ | take _ _ _ _ _
  | skip _ _ _ _ _ _ | page _ _ _ _ _ _ _ _ _ | lock _ _ => exact joined.elim
  | numbered _ hp _ _ _ => cases hp <;> exact joined.elim

/-- The statement of such a relation gives its rows. -/
theorem statement_joined
    (one : I.holds (I.binary .eq (I.literal (.integer 1)) (I.literal (.integer 1))))
    (joined : r.IsJoined) (nulls : r.ExtendsNull I) (columns : r.width ≠ 0)
    (native : .native ∈ strategies) (wellFormed : r.WellFormed) :
    ∃ s, r.statement server strategies = .ok s ∧
      (((s.tree.records I db).map Record.values : List (List V)) : Multiset (List V)) =
        r.rows I db := by
  obtain ⟨s, hs⟩ := exists_statement_iff.2 ⟨joined.taken native, wellFormed⟩
  refine ⟨s, hs, ?_⟩
  obtain ⟨c, d, hc, rfl⟩ := statement_ok hs
  obtain ⟨labels, (rowwise : c.Rowwise I db _ _ _), -⟩ :=
    (drafted_of_draft hc).rowwise joined one nulls
  have some : r.absentRow I ≠ [] := by
    intro none
    apply columns
    rw [← length_absentRow (I := I) joined, none, List.length_nil]
  rw [records_made, Multiset.coe_eq_coe]
  exact rowwise.records some

/-- Without calculations nothing is asked of the right sides of outer joins. -/
theorem statement_stored
    (one : I.holds (I.binary .eq (I.literal (.integer 1)) (I.literal (.integer 1))))
    (joined : r.IsJoined) (stored : ∀ s columns, extend s columns ∉ r.parts) (columns : r.width ≠ 0)
    (native : .native ∈ strategies) (wellFormed : r.WellFormed) :
    ∃ s, r.statement server strategies = .ok s ∧
      (((s.tree.records I db).map Record.values : List (List V)) : Multiset (List V)) =
        r.rows I db :=
  statement_joined one joined (extendsNull_of_stored joined stored) columns native wellFormed

/-- The statement of a left outer join gives the left rows with the right rows that match, and
those that nothing matches once, with NULL for the right columns. It does where one equals one,
as joins without columns to compare ask, and where calculations on the right side of an outer join
make NULL of NULL. -/
theorem statement_leftJoin (I : Interpretation V) (db : Database V) {pairs : List (Nat × Nat)}
    (one : I.holds (I.binary .eq (I.literal (.integer 1)) (I.literal (.integer 1))))
    (joinedL : a.IsJoined) (joinedR : b.IsJoined)
    (nulls : (join a b .leftOuter pairs).ExtendsNull I)
    (columns : (join a b .leftOuter pairs).width ≠ 0) (native : .native ∈ strategies)
    (wellFormed : (join a b .leftOuter pairs).WellFormed) :
    ∃ s, (join a b .leftOuter pairs).statement server strategies = .ok s ∧
      (((s.tree.records I db).map Record.values : List (List V)) : Multiset (List V)) =
        joinedRows I .leftOuter pairs b.width (a.rows I db) (b.rows I db) :=
  statement_joined one ⟨joinedL, joinedR⟩ nulls columns native wellFormed

/-- Rows of a table next to those of the table with the sum of their columns, where one has the
value that is the other's key. -/
def sumsByValue : Relation :=
  join (table valueTable) (extend (table valueTable)
    [⟨"sum", .binary .plus (.column 0) (.column 1), .int32⟩]) .leftOuter [(1, 0)]

/-- A sum is NULL where the row is missing. -/
theorem statement_leftJoin_of_sums :
    (sumsByValue.ExtendsNull (.integers fun _ ↦ none) ∧ sumsByValue.WellFormed) ∧
    ∃ s, sumsByValue.statement (.capabilities .postgreSql ⟨9, 0⟩) Strategy.standard = .ok s ∧
      (((s.tree.records (.integers fun _ ↦ none) twoSevens).map Record.values : List _) :
        Multiset (List (Option Int))) = sumsByValue.rows (.integers fun _ ↦ none) twoSevens := by
  have built : valueTable.IsBuilt := ⟨["id"], rfl⟩
  have nulls : sumsByValue.ExtendsNull (.integers fun _ ↦ none) := ⟨trivial, trivial, fun _ ↦ rfl⟩
  have wellFormed : sumsByValue.WellFormed := by
    simp [sumsByValue, WellFormed, Calculation.AllFit, Scalar.Fits, width, valueTable]
  exact ⟨⟨nulls, wellFormed⟩, statement_leftJoin (.integers fun _ ↦ none) twoSevens rfl built built
    nulls (by decide) (by decide) wellFormed⟩

/-- The same with a constant in place of the sum. -/
def onesByValue : Relation :=
  join (table valueTable) (extend (table valueTable) [⟨"one", .constant (.integer 1), .int32⟩])
    .leftOuter [(1, 0)]

/-- The constant stands in the rows that nothing matches. -/
theorem statement_ones_of_unmatched : ∃ s,
    onesByValue.statement (.capabilities .postgreSql ⟨9, 0⟩) Strategy.standard = .ok s ∧
      (((s.tree.records (.integers fun _ ↦ none) twoSevens).map Record.values : List _) :
        Multiset (List (Option Int))) ≠ onesByValue.rows (.integers fun _ ↦ none) twoSevens := by
  obtain ⟨s, hs, records⟩ : ∃ s, onesByValue.statement (.capabilities .postgreSql ⟨9, 0⟩)
      Strategy.standard = .ok s ∧ (s.tree.records (.integers fun _ ↦ none) twoSevens).map
        Record.values = [[some 1, some 7, none, none, some 1], [some 2, some 7, none, none, some 1],
          [some 3, none, none, none, some 1]] :=
    ⟨_, rfl, by cbv⟩
  have rows : onesByValue.rows (.integers fun _ ↦ none) twoSevens =
      [[some 1, some 7, none, none, none], [some 2, some 7, none, none, none],
        [some 3, none, none, none, none]] := by cbv
  refine ⟨s, hs, ?_⟩
  rw [records, rows]
  decide

end Relation

end SqlWright
