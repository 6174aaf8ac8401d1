import SqlWright.Proofs.Drafting.Derivation
import SqlWright.Proofs.Drafting.Held
import SqlWright.Proofs.Drafting.Outcome
import SqlWright.Proofs.Relation.FreeNames

/-!
# Names of output columns

The output columns of a select have the names that its header gives them, so that a
derived table can be read by its header. Every operation keeps this up, but for a
projection that repeats a position: the header numbers the second name, and the select
puts out the first name twice.
-/

namespace SqlWright

/-- Name that a column is read by: the alias, else the name of the column itself. -/
def OutputColumn.name? (c : OutputColumn Tree) : Option String :=
  c.label <|> match c.expr.node with
    | .column _ name => some name
    | _ => none

namespace Compiled

variable {d d' : Draft} {c c' : Compiled}

open Drafting Draft

/-- The output columns have the names of the header, which differ. -/
structure Named (c : Compiled) : Prop where
  names : c.select.columns.map OutputColumn.name? = c.header.names.map some
  nodup : c.header.names.Nodup

/-- An output column has the name it is to have. -/
theorem name?_outputColumn (expr : Tree) (name : String) :
    (outputColumn expr name).name? = some name := by
  unfold outputColumn
  split
  · next table own he =>
    by_cases h : own = name
    · simp [OutputColumn.name?, h, he]
    · simp [OutputColumn.name?, h]
  · rfl

theorem Named.appendColumn (hc : c.Named) (expr : Tree) (info : HeaderColumn) :
    (c.appendColumn expr info).Named where
  names := by
    have pushed : (c.appendColumn expr info).header.names =
        c.header.names ++ [c.header.pushedName info] := Header.names_push c.header info
    have output : (c.appendColumn expr info).select.columns =
        c.select.columns ++ [outputColumn expr (c.header.pushedName info)] := rfl
    rw [pushed, output, List.map_append, List.map_append, hc.names, List.map_singleton,
      name?_outputColumn, List.map_singleton]
  nodup := Header.nodup_push hc.nodup info

/-- A select of all columns has the names of the header it is made for. -/
theorem named_selectAll {source : Tree} {label : String} {header : Header} {s : Select Tree}
    (h : selectAll source label header d = .ok (s, d')) (hn : header.names.Nodup) :
    Named ⟨s, header⟩ where
  names := by
    obtain ⟨exprs, rfl, he⟩ := selectAll_ok h
    have read (t : Tree) : (⟨t, none⟩ : OutputColumn Tree).name? =
        (match t.node with | .column _ name => some name | _ => none) := rfl
    have names := congrArg (List.map fun n : Node Tree ↦
      match n with | .column _ name => some name | _ => none) he
    rw [List.map_map, List.map_map] at names
    rw [List.map_map, Header.names, List.map_map]
    exact names
  nodup := hn

theorem named_ofTable {t : Table} (h : ofTable t d = .ok (c, d')) : c.Named := by
  obtain ⟨source, d₁, -, hc, hh⟩ := ofTable_ok h
  have named := named_selectAll hc (Header.nodup_ofColumns _)
  rw [← hh] at named
  exact named

theorem named_ofNative {sql : String} {header : Header} (hn : header.names.Nodup)
    (h : ofNative sql header d = .ok (c, d')) : c.Named := by
  obtain ⟨query, d₁, source, d₂, -, -, hc, hh⟩ := ofNative_ok h
  have named := named_selectAll hc hn
  rw [← hh] at named
  exact named

/-- A select reads the columns of a derived table by the names of its header. -/
theorem Named.wrapFor {op : Operation} (hc : c.Named) (h : c.wrapFor op d = .ok (c', d')) :
    c'.Named := by
  unfold Compiled.wrapFor at h
  split at h
  · obtain ⟨query, d₁, source, d₂, outer, -, -, ho, rfl⟩ := wrap_ok h
    have named := named_selectAll ho hc.nodup
    exact ⟨named.names, named.nodup⟩
  · obtain ⟨rfl, -⟩ := pure_ok.1 h
    exact hc

theorem Named.filter {e : Scalar} (hc : c.Named) (h : c.filter e d = .ok (c', d')) :
    c'.Named := by
  obtain ⟨condition, d₁, filter, -, -, rfl⟩ := filter_ok h
  exact ⟨hc.names, hc.nodup⟩

/-- Names of the columns that a projection puts out and of those that its header has. -/
private theorem project_names {columns : List Nat} (hc : c.Named)
    (h : c.project columns = .ok c') :
    ∃ infos : List HeaderColumn,
      List.Forall₂ (fun i info ↦ c.header.columns[i]? = some info) columns infos ∧
      c'.select.columns.map OutputColumn.name? = (infos.map (·.name)).map some ∧
      c'.header.names = (Header.ofColumns infos).names := by
  obtain ⟨chosen, hp, rfl⟩ := project_ok h
  refine ⟨chosen.map (·.2), ?_, ?_, rfl⟩
  · rw [List.forall₂_map_right_iff]
    exact hp.imp fun i p hi ↦ hi.2
  · rw [List.map_map, List.map_map, List.map_map]
    refine List.map_congr_left fun p hmem ↦ ?_
    obtain ⟨i, -, hcolumn, hinfo⟩ := exists_of_mem_forall₂ hp hmem
    have names := congrArg (·[i]?) hc.names
    simp only [Header.names, List.getElem?_map, hcolumn, hinfo, Option.map_some] at names
    exact Option.some.inj names

/-- Elements at different positions of a list without repetitions are different. -/
private theorem nodup_iff_of_positions {α : Type} {l : List α} (hl : l.Nodup) {is : List Nat}
    {as : List α} (h : List.Forall₂ (fun i a ↦ l[i]? = some a) is as) : as.Nodup ↔ is.Nodup := by
  induction h with
  | nil => simp
  | @cons i a is as hi rest ih =>
    have mem : a ∈ as ↔ i ∈ is := by
      constructor
      · intro ha
        obtain ⟨j, hj, hja⟩ := exists_of_mem_forall₂ rest ha
        have hlt : i < l.length := (List.getElem?_eq_some_iff.1 hi).1
        have : i = j := (List.getElem?_inj hlt hl).1 (hi.trans hja.symm)
        exact this ▸ hj
      · intro hmem
        obtain ⟨b, hb, hib⟩ := exists_of_mem_forall₂ (List.Forall₂.flip rest) hmem
        have : a = b := Option.some.inj (hi.symm.trans hib)
        exact this ▸ hb
    rw [List.nodup_cons, List.nodup_cons, mem, ih]

/-- The names after a projection are those of its header exactly if it repeats no position. -/
theorem Named.project_iff {columns : List Nat} (hc : c.Named) (h : c.project columns = .ok c') :
    c'.select.columns.map OutputColumn.name? = c'.header.names.map some ↔ columns.Nodup := by
  obtain ⟨infos, hi, hs, hh⟩ := project_names hc h
  have names : List.Forall₂ (fun i n ↦ c.header.names[i]? = some n) columns
      (infos.map (·.name)) := by
    rw [List.forall₂_map_right_iff]
    refine hi.imp fun i info hinfo ↦ ?_
    rw [Header.names, List.getElem?_map, hinfo, Option.map_some]
  rw [← nodup_iff_of_positions hc.nodup names, hs, hh]
  constructor
  · intro hn
    rw [List.map_injective_iff.2 (Option.some_injective _) hn]
    exact Header.nodup_ofColumns infos
  · intro hn
    rw [Header.names_ofColumns hn]

theorem Named.project {columns : List Nat} (hc : c.Named) (h : c.project columns = .ok c')
    (hn : columns.Nodup) : c'.Named where
  names := (hc.project_iff h).2 hn
  nodup := by
    obtain ⟨infos, -, -, hh⟩ := project_names hc h
    rw [hh]
    exact Header.nodup_ofColumns infos

theorem Named.extend {columns : List Calculation} (hc : c.Named)
    (h : c.extend columns d = .ok (c', d')) : c'.Named := by
  induction columns generalizing c d with
  | nil =>
    obtain ⟨rfl, -⟩ := pure_ok.1 h
    exact hc
  | cons k columns ih =>
    simp only [Compiled.extend, bind_ok] at h
    obtain ⟨expr, d₁, -, h⟩ := h
    exact ih (hc.appendColumn expr _) h

theorem Named.join {left right : Compiled} {type : JoinType} {pairs : List (Nat × Nat)}
    (hl : left.Named) (h : left.join right type pairs d = .ok (some c, d')) : c.Named := by
  obtain ⟨l, d₁, r, d₂, leftSource, rightSource, condition, d₃, kind, on, filter, d₄, source,
    hwl, -, -, -, -, -, -, rfl⟩ := join_ok h
  have columns : (joinColumns l r).Named :=
    joinColumns_keeps (hl.wrapFor hwl) fun _ t info hc ↦ hc.appendColumn t info
  exact ⟨columns.names, columns.nodup⟩

private theorem Named.groupColumns {groups : Compiled} {groupBy : List Nat}
    (hg : groups.Named) (h : c.groupColumns groups groupBy = .ok c') : c'.Named := by
  induction groupBy generalizing groups with
  | nil =>
    cases h
    exact hg
  | cons i groupBy ih =>
    obtain ⟨expr, info, -, -, h⟩ := groupColumns_cons_ok h
    exact ih (hg.appendColumn expr info) h

private theorem Named.aggregateColumns {groups : Compiled} {aggregates : List Aggregation}
    (hg : groups.Named) (h : c.aggregateColumns groups aggregates d = .ok (c', d')) :
    c'.Named := by
  induction aggregates generalizing groups d with
  | nil =>
    obtain ⟨rfl, -⟩ := pure_ok.1 h
    exact hg
  | cons a aggregates ih =>
    simp only [Compiled.aggregateColumns, bind_ok] at h
    obtain ⟨expr, d₁, -, h⟩ := h
    exact ih (hg.appendColumn expr _) h

theorem named_aggregate {groupBy : List Nat} {aggregates : List Aggregation}
    (h : c.aggregate groupBy aggregates d = .ok (c', d')) : c'.Named := by
  obtain ⟨groups, all, hg, ha, rfl⟩ := aggregate_ok h
  have none_named : Named ⟨{}, {}⟩ := ⟨rfl, List.nodup_nil⟩
  have all_named := (none_named.groupColumns hg).aggregateColumns ha
  exact ⟨all_named.names, all_named.nodup⟩

theorem Named.sort {order : List SortItem} (hc : c.Named) (h : c.sort order = .ok c') :
    c'.Named := by
  obtain ⟨orderBy, -, rfl⟩ := sort_ok h
  exact ⟨hc.names, hc.nodup⟩

theorem Named.ordered (hc : c.Named) (isWanted : Bool) : (c.ordered isWanted).Named := by
  unfold Compiled.ordered
  split
  · exact ⟨hc.names, hc.nodup⟩
  · exact hc

theorem Named.limit {count : Tree} {isOrdered : Bool} (hc : c.Named)
    (h : c.limit count isOrdered d = .ok (c', d')) : c'.Named := by
  obtain ⟨l, -, rfl⟩ := limit_ok h
  exact Named.ordered (c := ⟨{ c.select with limit := some l }, c.header⟩)
    ⟨hc.names, hc.nodup⟩ isOrdered

theorem Named.offset {count : Tree} {isOrdered : Bool} (hc : c.Named)
    (h : c.offset count isOrdered d = .ok (c', d')) : c'.Named := by
  obtain ⟨l, -, rfl⟩ := offset_ok h
  exact Named.ordered (c := ⟨{ c.select with offset := some l }, c.header⟩)
    ⟨hc.names, hc.nodup⟩ isOrdered

theorem Named.numberedPage {skip take : Option Scalar} (hc : c.Named)
    (h : c.numberedPage skip take d = .ok (c', d')) : c'.Named := by
  obtain ⟨number, d₁, query, d₂, source, d₃, outer, d₄, row, d₅, low, d₆, high, d₇, filter,
    -, -, -, ho, -, -, -, -, rfl⟩ := numberedPage_ok h
  have named := named_selectAll ho hc.nodup
  exact ⟨named.names, named.nodup⟩

end Compiled

namespace Relation

variable {server : Server} {strategies : List Strategy} {r : Relation}

/-- No native query has two columns of one name in its header. -/
def NativeNamesDiffer (r : Relation) : Prop :=
  ∀ sql header, native sql header ∈ r.parts → header.names.Nodup

/-- No projection repeats a position. -/
def RepeatsNoColumn (r : Relation) : Prop :=
  ∀ source columns, project source columns ∈ r.parts → columns.Nodup

theorem NativeNamesDiffer.of_mem_parts {p : Relation} (h : r.NativeNamesDiffer)
    (hp : p ∈ r.parts) : p.NativeNamesDiffer :=
  fun sql header hn ↦ h sql header (mem_parts_trans hn hp)

theorem NativeNamesDiffer.tail {p : Relation} (h : r.NativeNamesDiffer)
    (hp : p ∈ r.parts.tail := by exact mem_parts_self _) : p.NativeNamesDiffer :=
  h.of_mem_parts (List.mem_of_mem_tail hp)

theorem RepeatsNoColumn.of_mem_parts {p : Relation} (h : r.RepeatsNoColumn)
    (hp : p ∈ r.parts) : p.RepeatsNoColumn :=
  fun source columns hn ↦ h source columns (mem_parts_trans hn hp)

theorem RepeatsNoColumn.tail {p : Relation} (h : r.RepeatsNoColumn)
    (hp : p ∈ r.parts.tail := by exact mem_parts_self _) : p.RepeatsNoColumn :=
  h.of_mem_parts (List.mem_of_mem_tail hp)

namespace Drafted

variable {d d' : Draft} {c : Compiled}

open Compiled

/-- Without repeated positions the output columns have the names of the header. -/
theorem named (h : r.Drafted server d c d') (hn : r.NativeNamesDiffer)
    (hr : r.RepeatsNoColumn) : c.Named := by
  induction h with
  | later g h ih => exact ih hn hr
  | table h => exact named_ofTable h
  | @native sql header _ _ _ h => exact named_ofNative (hn sql header (mem_parts_self _)) h
  | filter h hw hf ih => exact ((ih hn.tail hr.tail).wrapFor hw).filter hf
  | @project r columns _ _ _ _ _ _ h hw hp ih =>
    exact ((ih hn.tail hr.tail).wrapFor hw).project hp (hr r columns (mem_parts_self _))
  | extend h hw he ih => exact ((ih hn.tail hr.tail).wrapFor hw).extend he
  | @join a b _ _ _ _ _ _ _ _ _ hl _ hj ihl _ =>
    have left : a ∈ a.parts ++ b.parts := List.mem_append_left _ (mem_parts_self a)
    exact (ihl (hn.tail left) (hr.tail left)).join hj
  | aggregate _ _ ha _ => exact named_aggregate ha
  | sort h hw hs ih => exact ((ih hn.tail hr.tail).wrapFor hw).sort hs
  | distinct h hw ih =>
    have hc := (ih hn.tail hr.tail).wrapFor hw
    exact ⟨hc.names, hc.nodup⟩
  | take _ h _ hl ih => exact (ih hn.tail hr.tail).limit hl
  | skip _ h hw _ ho ih => exact ((ih hn.tail hr.tail).wrapFor hw).offset ho
  | page _ _ h hw _ ho _ hl ih => exact (((ih hn.tail hr.tail).wrapFor hw).offset ho).limit hl
  | numbered _ hp h hnum ih =>
    cases hp with
    | take _ | skip _ | page _ _ => exact (ih hn.tail hr.tail).numberedPage hnum
  | lock h ih =>
    have hc := ih hn.tail hr.tail
    exact ⟨hc.names, hc.nodup⟩

end Drafted

end Relation

/-- The statement is a select with as many columns as its header, each under the name that the
header gives it. -/
def Statement.NamesAgree (s : Statement) : Prop :=
  ∃ select, s.draft.graph.select? s.tree.id = some select ∧
    select.columns.length = s.header.size ∧
    ∀ i, s.draft.graph.columnName? select i = s.header.names[i]?

namespace Compiled

variable {d : Draft} {c : Compiled} {n : Nat}

open Draft

/-- A column is read by its name in the graph that holds it. -/
theorem columnName?_eq (hc : c.Held d) (i : Nat) :
    (d.withNode (.select c.select)).graph.columnName? (c.select.map Tree.id) i =
      c.select.columns[i]?.bind OutputColumn.name? := by
  have held := hc.grow (.withNode d (.select c.select))
  rw [Graph.columnName?, Select.map, List.getElem?_map]
  rcases hi : c.select.columns[i]? with _ | column
  · rfl
  · have expr_held := held.exprs column.expr (List.mem_map_of_mem (List.mem_of_getElem? hi))
    rw [Option.map_some, Option.bind_some, Option.bind_some, OutputColumn.name?, OutputColumn.map,
      expr_held.get_eq]
    cases column.expr.node <;> rfl

/-- The statement of a select has the select under its tree. -/
theorem select?_made (hc : c.Held d) (hd : d.Started) :
    (d.withNode (.select c.select)).graph.select? (d.made (.select c.select)).id =
      some (c.select.map Tree.id) := by
  have made := hd.holds_made (n := .select c.select) hc.children
  rw [Graph.select?, made.get_eq]
  rfl

/-- The names of a statement agree exactly if those of its select do. -/
theorem namesAgree_iff (hc : c.Held d) (hd : d.Started) (hw : c.HasWidth n) :
    Statement.NamesAgree ⟨d.made (.select c.select), c.header, d.withNode (.select c.select)⟩ ↔
      c.select.columns.map OutputColumn.name? = c.header.names.map some := by
  have size : c.header.names.length = n := (List.length_map _).trans hw.header
  constructor
  · rintro ⟨select, hs, -, names⟩
    rw [select?_made hc hd] at hs
    cases hs
    refine List.ext_getElem? fun i ↦ ?_
    have name := names i
    rw [columnName?_eq hc] at name
    rw [List.getElem?_map, List.getElem?_map, ← name]
    rcases hi : c.select.columns[i]? with _ | column
    · rfl
    · have hlt : i < c.header.names.length := by
        rw [size, ← hw.columns]
        exact (List.getElem?_eq_some_iff.1 hi).1
      rw [hi, List.getElem?_eq_getElem hlt, Option.bind_some] at name
      rw [Option.map_some, Option.bind_some, name, Option.map_some]
  · intro names
    refine ⟨_, select?_made hc hd, ?_, fun i ↦ ?_⟩
    · rw [Select.map, List.length_map, hw.columns, ← hw.header]
    · rw [columnName?_eq hc]
      have name := congrArg (·[i]?) names
      simp only [List.getElem?_map] at name
      rcases hi : c.select.columns[i]? with _ | column
      · rw [hi] at name
        rcases hh : c.header.names[i]? with _ | own
        · rfl
        · rw [hh] at name
          cases name
      · rw [hi, Option.map_some] at name
        rcases hh : c.header.names[i]? with _ | own
        · rw [hh] at name
          cases name
        · rw [hh, Option.map_some] at name
          exact Option.some.inj name

end Compiled

namespace Relation

variable {server : Server} {strategies : List Strategy} {r : Relation} {s : Statement}

/-- A statement is that of a select, whose columns and header are of one width. -/
theorem statement_compiled (h : r.statement server strategies = .ok s) :
    ∃ c d, r.draft server strategies {} = .ok (some c, d) ∧ c.Held d ∧ d.Started ∧
      c.HasWidth r.width ∧
      s = ⟨d.made (.select c.select), c.header, d.withNode (.select c.select)⟩ := by
  obtain ⟨c, d, hc, hs⟩ := statement_ok h
  have drafted := drafted_of_draft hc
  exact ⟨c, d, hc, drafted.held Draft.started_empty, drafted.grows.started Draft.started_empty,
    ((offers_draft r).some hc).2.2, hs⟩

/-- Where a projection repeats a position, there is a deepest such projection. -/
theorem exists_deepest_repetition (h : ¬r.RepeatsNoColumn) :
    ∃ source columns, project source columns ∈ r.parts ∧ ¬columns.Nodup ∧
      source.RepeatsNoColumn := by
  induction r with
  | table _ | native _ _ =>
    exact (h (by simp [RepeatsNoColumn, parts])).elim
  | project r columns ih =>
    by_cases hr : r.RepeatsNoColumn
    · refine ⟨r, columns, mem_parts_self _, fun hn ↦ h fun s cs hmem ↦ ?_, hr⟩
      rcases List.mem_cons.1 hmem with he | hmem
      · cases he
        exact hn
      · exact hr s cs hmem
    · obtain ⟨s, cs, hp, hd, hs⟩ := ih hr
      exact ⟨s, cs, List.mem_cons_of_mem _ hp, hd, hs⟩
  | join a b _ _ iha ihb =>
    by_cases ha : a.RepeatsNoColumn
    · by_cases hb : b.RepeatsNoColumn
      · refine (h fun s cs hmem ↦ ?_).elim
        rcases List.mem_cons.1 hmem with he | hmem
        · cases he
        · exact (List.mem_append.1 hmem).elim (ha s cs) (hb s cs)
      · obtain ⟨s, cs, hp, hd, hs⟩ := ihb hb
        exact ⟨s, cs, List.mem_cons_of_mem _ (List.mem_append_right _ hp), hd, hs⟩
    · obtain ⟨s, cs, hp, hd, hs⟩ := iha ha
      exact ⟨s, cs, List.mem_cons_of_mem _ (List.mem_append_left _ hp), hd, hs⟩
  | filter r _ ih | extend r _ ih | aggregate r _ _ ih | sort r _ ih | distinct r ih
  | take r _ ih | skip r _ ih | page r _ _ ih | lock r _ ih =>
    have hr : ¬r.RepeatsNoColumn := by simpa [RepeatsNoColumn, parts] using h
    obtain ⟨s, cs, hp, hd, hs⟩ := ih hr
    exact ⟨s, cs, List.mem_cons_of_mem _ hp, hd, hs⟩

/-- A projection that repeats a position does not keep up the names of its source. -/
theorem names_ne_of_repetition {source : Relation} {columns : List Nat} {d d' : Draft}
    {c : Compiled} (h : (project source columns).draft server strategies d = .ok (some c, d'))
    (hn : source.NativeNamesDiffer) (hs : source.RepeatsNoColumn) (hr : ¬columns.Nodup) :
    c.select.columns.map OutputColumn.name? ≠ c.header.names.map some := by
  have derived := drafted_of_draft h
  clear h
  generalize hp : project source columns = p at derived
  induction derived with
  | later _ _ ih => exact ih hp
  | project hd hw hproject _ =>
    cases hp
    exact fun names ↦ hr ((((hd.named hn hs).wrapFor hw).project_iff hproject).1 names)
  | numbered _ hpage _ _ _ =>
    subst hp
    cases hpage
  | _ => cases hp

/-- A statement is a select with as many columns as its header. Its columns and those of the
statements of its parts have the names of their headers exactly if no projection repeats a
position. -/
theorem names_agree_iff (hn : r.NativeNamesDiffer)
    (h : r.statement server strategies = .ok s) :
    (∃ select, s.draft.graph.select? s.tree.id = some select ∧
      select.columns.length = s.header.size) ∧
    ((∀ p ∈ r.parts, ∀ t, p.statement server strategies = .ok t → t.NamesAgree) ↔
      r.RepeatsNoColumn) := by
  constructor
  · obtain ⟨c, d, hc, held, started, width, rfl⟩ := statement_compiled h
    refine ⟨_, Compiled.select?_made held started, ?_⟩
    rw [Select.map, List.length_map, width.columns, ← width.header]
  constructor
  · intro agree
    by_contra repeats
    obtain ⟨source, columns, hp, hd, hr⟩ := exists_deepest_repetition repeats
    have compiled := exists_statement_iff.1 ⟨s, h⟩
    obtain ⟨t, ht⟩ := exists_statement_iff.2
      ⟨compiled.1.of_mem_parts hp, compiled.2.of_mem_parts hp⟩
    have named := agree _ hp t ht
    obtain ⟨c, d, hc, held, started, width, rfl⟩ := statement_compiled ht
    refine names_ne_of_repetition hc (hn.of_mem_parts hp).tail hr hd ?_
    exact (Compiled.namesAgree_iff held started width).1 named
  · intro hr p hp t ht
    obtain ⟨c, d, hc, held, started, width, rfl⟩ := statement_compiled ht
    have named := (drafted_of_draft hc).named (hn.of_mem_parts hp) (hr.of_mem_parts hp)
    exact (Compiled.namesAgree_iff held started width).2 named.names

/-- Projection of a table of one column. -/
def ofOneColumn (columns : List Nat) : Relation :=
  project (table ⟨none, "t", [⟨"id", .int32, false⟩], [0]⟩) columns

private theorem nativeNamesDiffer_ofOneColumn (columns : List Nat) :
    (ofOneColumn columns).NativeNamesDiffer := by
  simp [NativeNamesDiffer, ofOneColumn, parts]

/-- The column taken once has its own name, in the select and in the header. -/
theorem names_agree_iff_of_one_column :
    ∃ s, (ofOneColumn [0]).statement (.capabilities .postgreSql ⟨8, 4⟩) Strategy.standard = .ok s ∧
      (ofOneColumn [0]).NativeNamesDiffer ∧
      ((∀ p ∈ (ofOneColumn [0]).parts, ∀ t, p.statement (.capabilities .postgreSql ⟨8, 4⟩)
        Strategy.standard = .ok t → t.NamesAgree) ↔ (ofOneColumn [0]).RepeatsNoColumn) :=
  ⟨_, rfl, nativeNamesDiffer_ofOneColumn [0],
    (names_agree_iff (nativeNamesDiffer_ofOneColumn [0]) rfl).2⟩

/-- The column taken twice is put out twice as `id`, while the header calls the second one
`id1`. -/
theorem names_differ_of_one_column_twice :
    ∃ server s, Server.build .postgreSql ⟨8, 4⟩ = .ok server ∧
      (ofOneColumn [0, 0]).statement server Strategy.standard = .ok s ∧
      s.header.names = ["id", "id1"] ∧ ¬s.NamesAgree := by
  refine ⟨_, _, rfl, rfl, rfl, ?_⟩
  rintro ⟨select, hs, -, names⟩
  cases hs
  exact absurd (names 1) (by decide)

end Relation

end SqlWright
