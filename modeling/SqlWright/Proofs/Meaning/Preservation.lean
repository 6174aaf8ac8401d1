import SqlWright.Proofs.Meaning.Merging

/-!
# Statements keep the meaning of relations

Where no page is taken, the statement of a relation gives the rows of the relation, each as
often as the relation has it.
-/

namespace SqlWright

variable {V : Type} [DecidableEq V] {I : Interpretation V} {db : Database V} {d d' : Draft}

open Drafting Draft Compiled

/-- The table is one that `Table.build` makes. -/
def Table.IsBuilt (t : Table) : Prop :=
  ∃ key, Table.build t.schema t.name t.columns key = .ok t

/-- Of a table that is built nothing was refused. -/
theorem Table.IsBuilt.accepted {t : Table} (h : t.IsBuilt) :
    t.columns ≠ [] ∧ Table.duplicate? [] t.columns = none ∧
      ∀ i ∈ t.key, ∃ name, t.columns.findIdx? (·.name == name) = some i := by
  obtain ⟨names, h⟩ := h
  unfold Table.build at h
  by_cases hn : t.name.isEmpty
  · rw [if_pos hn] at h
    cases h
  rw [if_neg hn] at h
  by_cases hc : t.columns.isEmpty
  · rw [if_pos hc] at h
    cases h
  rw [if_neg hc] at h
  rcases hd : Table.duplicate? [] t.columns with _ | column
  · rw [hd] at h
    obtain ⟨key, hk, h⟩ := bind_except_ok.1 h
    have same : key = t.key := congrArg Table.key (Except.ok.inj h)
    refine ⟨by simpa using hc, rfl, fun i hi ↦ ?_⟩
    obtain ⟨name, -, found⟩ := exists_of_mem_forall₂ (mapM_except_ok.1 hk) (same ▸ hi)
    refine ⟨name, ?_⟩
    split at found
    · next j hj => rwa [Except.ok.inj found] at hj
    · cases found
  · rw [hd] at h
    cases h

/-- A table that is built has columns, and their names differ. -/
theorem Table.IsBuilt.names_nodup {t : Table} (h : t.IsBuilt) :
    t.columns ≠ [] ∧ (t.columns.map (·.name)).Nodup := by
  have different (seen : List String) (columns : List Column)
      (hd : Table.duplicate? seen columns = none) :
      (columns.map (·.name)).Nodup ∧ ∀ n ∈ columns.map (·.name), n ∉ seen := by
    induction columns generalizing seen with
    | nil => simp
    | cons c columns ih =>
      rw [Table.duplicate?] at hd
      split at hd
      · cases hd
      · next hc =>
        obtain ⟨nodup, fresh⟩ := ih _ hd
        rw [List.map_cons, List.nodup_cons]
        refine ⟨⟨fun hm ↦ fresh _ hm List.mem_cons_self, nodup⟩, ?_⟩
        rw [List.forall_mem_cons]
        exact ⟨by simpa using hc, fun n hn hs ↦ fresh n hn (List.mem_cons_of_mem _ hs)⟩
  exact ⟨h.accepted.1, (different [] t.columns h.accepted.2.1).1⟩

/-- The key of a table that is built consists of columns of the table. -/
theorem Table.IsBuilt.key_lt {t : Table} (h : t.IsBuilt) : ∀ i ∈ t.key, i < t.columns.length := by
  intro i hi
  obtain ⟨name, found⟩ := h.accepted.2.2 i hi
  exact (List.findIdx?_eq_some_iff_getElem.1 found).1

namespace Relation

/-- The relation takes no pages, has no native queries and locks no rows; its tables are built,
its projections are onto some different positions, its joins are inner ones, and its
aggregations have columns to group by. -/
def IsPlain : Relation → Prop
  | table t => t.IsBuilt
  | filter r _ | extend r _ | sort r _ | distinct r => r.IsPlain
  | project r columns => columns ≠ [] ∧ columns.Nodup ∧ r.IsPlain
  | join a b type _ => type = .inner ∧ a.IsPlain ∧ b.IsPlain
  | aggregate r groupBy _ => groupBy ≠ [] ∧ r.IsPlain
  | native _ _ | take _ _ | skip _ _ | page _ _ _ | lock _ _ => False

variable {r p : Relation} {server : Server} {c : Compiled} {strategies : List Strategy}

theorem IsPlain.of_mem_parts (h : r.IsPlain) (hp : p ∈ r.parts) : p.IsPlain := by
  refine passes_to_parts (fun r h ↦ ?_) h hp
  cases r with
  | native _ _ | take _ _ | skip _ _ | page _ _ _ | lock _ _ => exact h.elim
  | table _ => exact List.forall_mem_nil _
  | join _ _ _ _ => simpa [sources] using h.2
  | filter _ _ | extend _ _ | sort _ _ | distinct _ => exact List.forall_mem_singleton.2 h
  | project _ _ => exact List.forall_mem_singleton.2 h.2.2
  | aggregate _ _ _ => exact List.forall_mem_singleton.2 h.2

/-- The select of a plain relation puts out the names of its header. -/
theorem Drafted.named_of_plain (h : r.Drafted server d c d') (plain : r.IsPlain) : c.Named :=
  h.named (fun _ _ hn ↦ (plain.of_mem_parts hn).elim)
    fun _ _ hp ↦ (plain.of_mem_parts hp).2.1

/-! ### Types of columns -/

end Relation

namespace Header

/-- Types of the columns. -/
def types (h : Header) : List SqlType := h.columns.map (·.type)

theorem types_push (h : Header) (c : HeaderColumn) : (h.push c).types = h.types ++ [c.type] := by
  rw [types, push, List.map_append]
  rfl

theorem types_ofColumns (columns : List HeaderColumn) :
    (ofColumns columns).types = columns.map (·.type) := by
  have grown (h : Header) : (columns.foldl push h).types = h.types ++ columns.map (·.type) := by
    induction columns generalizing h with
    | nil => exact (List.append_nil _).symm
    | cons c columns ih =>
      rw [List.foldl_cons, ih, types_push, List.append_assoc]
      rfl
  exact grown {}

end Header

namespace Compiled

variable {c c' : Compiled}

theorem header_wrapFor {op : Operation} (h : c.wrapFor op d = .ok (c', d')) :
    c'.header = c.header := by
  unfold Compiled.wrapFor at h
  split at h
  · obtain ⟨query, d₁, source, d₂, outer, -, -, -, rfl⟩ := wrap_ok h
    rfl
  · obtain ⟨rfl, -⟩ := pure_ok.1 h
    rfl

theorem types_appendColumn (t : Tree) (info : HeaderColumn) :
    (c.appendColumn t info).header.types = c.header.types ++ [info.type] :=
  Header.types_push c.header info

theorem types_project {columns : List Nat} (h : c.project columns = .ok c') :
    c'.header.types = columns.filterMap (c.header.types[·]?) := by
  obtain ⟨chosen, hp, rfl⟩ := project_ok h
  change (Header.ofColumns (chosen.map (·.2))).types = _
  rw [Header.types_ofColumns]
  clear h
  induction hp with
  | nil => rfl
  | @cons i p _ _ hi _ ih =>
    have found : c.header.types[i]? = some p.2.type := by
      rw [Header.types, List.getElem?_map, hi.2, Option.map_some]
    rw [List.map_cons, List.map_cons, List.filterMap_cons, found, ih]

theorem types_extend {columns : List Calculation} (h : c.extend columns d = .ok (c', d')) :
    c'.header.types = c.header.types ++ columns.map (·.type) := by
  induction columns generalizing c d with
  | nil =>
    obtain ⟨rfl, -⟩ := pure_ok.1 h
    exact (List.append_nil _).symm
  | cons k columns ih =>
    simp only [Compiled.extend, bind_ok] at h
    obtain ⟨expr, d₁, -, h⟩ := h
    rw [ih h, types_appendColumn, List.append_assoc]
    rfl

theorem types_groupColumns {groups : Compiled} {groupBy : List Nat}
    (h : c.groupColumns groups groupBy = .ok c') :
    c'.header.types = groups.header.types ++ groupBy.filterMap (c.header.types[·]?) := by
  induction groupBy generalizing groups with
  | nil =>
    cases h
    exact (List.append_nil _).symm
  | cons i groupBy ih =>
    obtain ⟨expr, info, -, hi, h⟩ := groupColumns_cons_ok h
    rw [ih h, types_appendColumn, List.append_assoc, List.filterMap_cons]
    rw [show c.header.types[i]? = some info.type by
      rw [Header.types, List.getElem?_map, hi, Option.map_some]]
    rfl

theorem types_aggregateColumns {groups : Compiled} {aggregates : List Aggregation}
    (h : c.aggregateColumns groups aggregates d = .ok (c', d')) :
    c'.header.types = groups.header.types ++ aggregates.map (·.type) := by
  induction aggregates generalizing groups d with
  | nil =>
    obtain ⟨rfl, -⟩ := pure_ok.1 h
    exact (List.append_nil _).symm
  | cons a aggregates ih =>
    simp only [aggregateColumns, bind_ok] at h
    obtain ⟨expr, d₁, -, h⟩ := h
    rw [ih h, types_appendColumn, List.append_assoc]
    rfl

theorem types_joinColumns {left right : Compiled}
    (hr : right.header.columns.length ≤ right.select.columns.length) :
    (joinColumns left right).header.types = left.header.types ++ right.header.types := by
  rw [joinColumns_adds (f := fun c ↦ c.header.types) fun _ ↦ types_appendColumn]
  congr 1
  rw [Header.types, ← List.map_snd_zip hr, List.map_map, List.map_snd_zip hr]
  rfl

end Compiled

/-! ### Whole relations -/

namespace Compiled

variable {labels labels' : List String} {d₁ d₂ : Draft}

/-- Wrapping a select keeps its rows and gives an alias at most. -/
theorem Yields.wrapped {op : Operation} {c w : Compiled} {rows : List (List V)}
    (hc : c.Yields I db rows labels) (named : c.Named) (given : Given d d₁ labels)
    (hd : d.aliases ≤ d₁.aliases) (hw : c.wrapFor op d₁ = .ok (w, d₂)) :
    mustWrap w.select op = false ∧ ∃ labels', w.Yields I db rows labels' ∧ Given d d₂ labels' := by
  obtain ⟨merges, labels', yields, same | given'⟩ := hc.wrapFor named hw
  · refine ⟨merges, labels', yields, ?_⟩
    rw [same]
    exact given.mono le_rfl ((growing_wrapFor _ _).grows hw).aliases
  · exact ⟨merges, labels', yields, given'.mono hd le_rfl⟩

end Compiled

namespace Relation

variable {r : Relation} {server : Server} {c : Compiled} {strategies : List Strategy}

/-- The select of a plain relation has columns of the relation's types and yields its rows. -/
theorem Drafted.yields (h : r.Drafted server d c d') (plain : r.IsPlain) :
    c.header.types = r.types ∧
      ∃ labels, c.Yields I db (r.rows I db) labels ∧ Given d d' labels := by
  induction h with
  | later g h ih =>
    obtain ⟨types, labels, yields, given⟩ := ih plain
    exact ⟨types, labels, yields, given.mono g.aliases le_rfl⟩
  | @table t d d' c h =>
    obtain ⟨columns, names⟩ := Table.IsBuilt.names_nodup plain
    obtain ⟨source, d₁, hs, hc, hh⟩ := ofTable_ok h
    refine ⟨?_, _, yields_ofTable columns names h, fun l hl ↦ ?_⟩
    · rw [hh]
      change (Header.ofColumns _).types = _
      rw [Header.types_ofColumns, List.map_map]
      rfl
    · have grown := ((growing_selectAll _ _ _).grows hc).aliases
      rw [(node_ok.1 hs).2] at grown
      exact ⟨d.aliases, le_rfl, grown, List.mem_singleton.1 hl⟩
  | filter h hw hf ih =>
    obtain ⟨types, labels, yields, given⟩ := ih plain
    obtain ⟨merges, labels', yields, given⟩ :=
      yields.wrapped (h.named_of_plain plain) given h.grows.aliases hw
    refine ⟨?_, labels', yields.filter merges hf,
      given.mono le_rfl ((growing_filter _ _).grows hf).aliases⟩
    obtain ⟨condition, d₁, filter, -, -, rfl⟩ := filter_ok hf
    rw [header_wrapFor hw, types]
    rfl
  | project h hw hp ih =>
    obtain ⟨types, labels, yields, given⟩ := ih plain.2.2
    obtain ⟨merges, labels', yields, given⟩ :=
      yields.wrapped (h.named_of_plain plain.2.2) given h.grows.aliases hw
    refine ⟨?_, labels', yields.project merges plain.1 hp, given⟩
    rw [types_project hp, header_wrapFor hw, types]
    rfl
  | extend h hw he ih =>
    obtain ⟨types, labels, yields, given⟩ := ih plain
    obtain ⟨merges, labels', yields, given⟩ :=
      yields.wrapped (h.named_of_plain plain) given h.grows.aliases hw
    refine ⟨?_, labels', yields.extend merges he,
      given.mono le_rfl ((growing_extend _ _).grows he).aliases⟩
    rw [types_extend he, header_wrapFor hw, types]
    rfl
  | @join a b type pairs d d₁ d₂ d' l r c ha hb hj iha ihb =>
    obtain ⟨rfl, plainA, plainB⟩ := plain
    obtain ⟨typesL, labels, yieldsL, givenL⟩ := iha plainA
    obtain ⟨typesR, labels', yieldsR, givenR⟩ := ihb plainB
    have namedR := hb.named_of_plain plainB
    obtain ⟨wl, d₃, wr, d₄, leftSource, rightSource, condition, d₅, kind, on, filter, d₆, source,
      hwl, hwr, hls, hrs, hcond, hparts, hs, rfl⟩ := join_ok hj
    have g₁ := ha.grows.aliases
    have g₂ := hb.grows.aliases
    have g₃ := ((growing_wrapFor _ _).grows hwl).aliases
    have g₄ := ((growing_wrapFor _ _).grows hwr).aliases
    have g₅ : d₄.aliases ≤ d'.aliases :=
      (((growing_joinCondition _ _ _ _).grows hcond).trans
        (((growing_joinParts _ _ _ _).grows hparts).trans
          ((Growing.node _).grows hs))).aliases
    obtain ⟨mergesL, labelsL, yieldsL, whereL⟩ := yieldsL.wrapFor (ha.named_of_plain plainA) hwl
    obtain ⟨mergesR, labelsR, yieldsR, whereR⟩ := yieldsR.wrapFor namedR hwr
    -- aliases of the sides stem from different stretches of the draft
    obtain ⟨disjoint, givenL, givenR⟩ :
        labelsL.Disjoint labelsR ∧ Given d d' labelsL ∧ Given d d' labelsR := by
      rcases whereL with rfl | whereL <;> rcases whereR with rfl | whereR
      · exact ⟨givenL.disjoint givenR le_rfl, givenL.mono le_rfl (by omega),
          givenR.mono (by omega) (by omega)⟩
      · exact ⟨givenL.disjoint whereR (by omega), givenL.mono le_rfl (by omega),
          whereR.mono (by omega) (by omega)⟩
      · exact ⟨(givenR.disjoint whereL le_rfl).symm, whereL.mono (by omega) (by omega),
          givenR.mono (by omega) (by omega)⟩
      · exact ⟨whereL.disjoint whereR le_rfl, whereL.mono (by omega) (by omega),
          whereR.mono (by omega) (by omega)⟩
    have namedW := namedR.wrapFor hwr
    refine ⟨?_, labelsL ++ labelsR, yieldsL.joined yieldsR mergesL mergesR namedW disjoint hls hrs
      hcond hparts hs, fun l hl ↦ ?_⟩
    · have length := congrArg List.length namedW.names
      rw [List.length_map, List.length_map, Header.names, List.length_map] at length
      change (joinColumns wl wr).header.types = _
      rw [types_joinColumns length.ge, header_wrapFor hwl, header_wrapFor hwr, typesL, typesR]
      rfl
    · rcases List.mem_append.1 hl with hl | hl
      · exact givenL l hl
      · exact givenR l hl
  | aggregate h hw ha ih =>
    obtain ⟨types, labels, yields, given⟩ := ih plain.2
    obtain ⟨merges, labels', yields, given⟩ :=
      yields.wrapped (h.named_of_plain plain.2) given h.grows.aliases hw
    have aggregated := yields.aggregate merges plain.1 ha
    rw [← Header.types, header_wrapFor hw, types] at aggregated
    refine ⟨?_, labels', aggregated, given.mono le_rfl ((growing_aggregate _ _ _).grows ha).aliases⟩
    obtain ⟨groups, all, hg, hall, rfl⟩ := aggregate_ok ha
    change all.header.types = _
    rw [types_aggregateColumns hall, types_groupColumns hg, header_wrapFor hw, types]
    rfl
  | sort h hw hs ih =>
    obtain ⟨types, labels, yields, given⟩ := ih plain
    obtain ⟨-, labels', yields, given⟩ :=
      yields.wrapped (h.named_of_plain plain) given h.grows.aliases hw
    refine ⟨?_, labels', yields.sort hs, given⟩
    obtain ⟨orderBy, -, rfl⟩ := sort_ok hs
    exact (congrArg Header.types (header_wrapFor hw)).trans types
  | distinct h hw ih =>
    obtain ⟨types, labels, yields, given⟩ := ih plain
    obtain ⟨-, labels', yields, given⟩ :=
      yields.wrapped (h.named_of_plain plain) given h.grows.aliases hw
    exact ⟨(congrArg Header.types (header_wrapFor hw)).trans types, labels', yields.distinct, given⟩
  | native _ | take _ _ _ _ _ | skip _ _ _ _ _ _ | page _ _ _ _ _ _ _ _ _ | lock _ _ =>
    exact plain.elim
  | numbered _ hp _ _ _ => cases hp <;> exact plain.elim

/-- The statement of a plain relation gives the rows of the relation, each as often as the
relation has it. -/
theorem statement_rows (I : Interpretation V) (db : Database V) {s : Statement}
    (plain : r.IsPlain) (h : r.statement server strategies = .ok s) :
    (((s.tree.records I db).map Record.values : List (List V)) : Multiset (List V)) =
      r.rows I db := by
  obtain ⟨c, d, hc, rfl⟩ := statement_ok h
  obtain ⟨-, labels, yields, -⟩ : c.header.types = r.types ∧
      ∃ labels, c.Yields I db (r.rows I db) labels ∧ Given {} d labels :=
    (drafted_of_draft hc).yields plain
  rw [records_made, Select.records_of_unpaged (isPaged_denoted.trans yields.unpaged),
    Multiset.coe_eq_coe]
  exact Select.values_ordered_perm.trans yields.rows

/-- Table of values, of which some may stand in more than one row. -/
def valueTable : Table :=
  ⟨none, "t", [⟨"id", .int32, false⟩, ⟨"value", .int32, true⟩], [0]⟩

/-- Values that a column of a table has more than once, with the number of times. -/
def repeatedValues : Relation :=
  let t : Table := ⟨none, "t", [⟨"id", .int32, false⟩, ⟨"value", .int32, true⟩], [0]⟩
  distinct (filter (aggregate (table t) [1] [⟨"times", .count, none, .int64⟩])
    (.binary .gt (.column 1) (.constant (.integer 1))))

/-- Rows of that table, of which two have the value seven. -/
def twoSevens : Database (Option Int) where
  table _ _ := [[("id", some 1), ("value", some 7)], [("id", some 2), ("value", some 7)],
    [("id", some 3), ("value", none)]]
  native _ := []

/-- The statement for the repeated values, in which groups become a derived table, has the
rows of the relation. -/
theorem statement_rows_of_repeatedValues :
    repeatedValues.IsPlain ∧ ∃ s,
      repeatedValues.statement (.capabilities .postgreSql ⟨9, 0⟩) Strategy.standard = .ok s ∧
      (((s.tree.records (.integers fun _ ↦ none) twoSevens).map Record.values : List _) :
        Multiset (List (Option Int))) = repeatedValues.rows (.integers fun _ ↦ none) twoSevens := by
  have plain : repeatedValues.IsPlain := ⟨by simp, ["id"], rfl⟩
  obtain ⟨s, hs⟩ : ∃ s, repeatedValues.statement (.capabilities .postgreSql ⟨9, 0⟩)
      Strategy.standard = .ok s := ⟨_, rfl⟩
  exact ⟨plain, s, hs, statement_rows _ _ plain hs⟩

end Relation

end SqlWright
