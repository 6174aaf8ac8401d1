import SqlWright.Proofs.Command.Decided
import SqlWright.Proofs.Drafting.Held
import SqlWright.Proofs.Paging.NumberedRows

/-!
# Chains of pages

A page of a page, of a table in the end, is drafted by clauses where the server has them and by
row numbers where it has not. `Compiled.Lists` says of the select of such a chain that it gives
certain rows one after the other; every page that is added takes and drops of these. No two rows
have the same key, so the order of a page is found again behind every derived table.
-/

namespace SqlWright

variable {V : Type} [DecidableEq V] {I : Interpretation V} {db : Database V} {d d' : Draft}
  {t : Table} {server : Server}

open Drafting Draft Meaning Compiled

/-! ### Tables with a key -/

theorem Header.size_ofTable (t : Table) : (ofTable t).size = t.columns.length := by
  rw [ofTable, withOrder]
  exact (size_ofColumns _).trans (List.length_map _)

/-- Every column of the order of a header is a column of the header. -/
def Header.OrderFits (h : Header) : Prop := ∀ item ∈ h.order, item.column < h.columns.length

/-- No two rows of the table have the same key, as far as the order of values tells keys apart. -/
def Table.HasUniqueKey (I : Interpretation V) (db : Database V) (t : Table) : Prop :=
  ((db.table t.schema t.name).map fun record ↦ t.columns.map (record.get I ·.name)).Pairwise
    fun a b ↦ ¬(Relation.rowLe I (t.key.map (⟨·, true⟩)) a b ∧
      Relation.rowLe I (t.key.map (⟨·, true⟩)) b a)

theorem Table.IsBuilt.orderFits (h : t.IsBuilt) : (Header.ofTable t).OrderFits := by
  intro item hi
  have size : (Header.ofTable t).columns.length = t.columns.length := Header.size_ofTable t
  obtain ⟨i, mem, rfl⟩ := List.mem_map.1 hi
  rw [size]
  exact h.key_lt i mem

namespace Compiled

variable {c c' : Compiled} {rows : List (List V)}

/-! ### Orderings of derived tables -/

/-- A select with an ordering is not ordered anew. -/
theorem ordered_of_ne_nil (h : c.select.orderBy ≠ []) (isWanted : Bool) :
    c.ordered isWanted = c := by
  rw [ordered, if_neg]
  simpa using fun _ ↦ h

/-- The columns of a select are columns of a row source, one for each column of the header. -/
def ReadsColumns (c : Compiled) : Prop :=
  ∃ label, c.select.exprs.map Tree.node =
    c.header.columns.map fun k ↦ .column (some label) k.name

theorem ReadsColumns.length_eq (h : c.ReadsColumns) :
    c.select.exprs.length = c.header.columns.length := by
  obtain ⟨label, nodes⟩ := h
  simpa using congrArg List.length nodes

theorem readsColumns_selectAll {source : Tree} {label : String} {header : Header} {s : Select Tree}
    (h : selectAll source label header d = .ok (s, d')) (filter : Option Tree)
    (orderBy : List (SortKey Tree)) : ReadsColumns ⟨{ s with filter, orderBy }, header⟩ := by
  obtain ⟨exprs, rfl, nodes⟩ := selectAll_ok h
  refine ⟨label, Eq.trans ?_ nodes⟩
  simp [Select.exprs]

/-- Columns of a row source under different names are different nodes. -/
theorem ReadsColumns.nodup_ids (h : c.ReadsColumns) (named : c.Named) (held : c.Held d) :
    (c.select.exprs.map Tree.id).Nodup := by
  obtain ⟨label, nodes⟩ := h
  have different : (c.select.exprs.map Tree.node).Nodup := by
    rw [nodes]
    refine List.Nodup.map_on (fun k hk k' hk' e ↦ ?_) named.nodup.of_map
    exact List.inj_on_of_nodup_map named.nodup hk hk' (by injection e)
  refine List.Nodup.map_on (fun t ht u hu e ↦ ?_) different.of_map
  exact Graph.Holds.eq_of_id_eq (held.exprs t ht) (held.exprs u hu) e

/-- An ordering by the header becomes the same ordering of a derived table. -/
theorem outerOrder_headerOrder {s : Select Tree} {header : Header} {outer : List Tree}
    (ho : s.orderBy = headerOrder s.exprs header) (ids : (s.exprs.map Tree.id).Nodup)
    (length : outer.length = s.exprs.length) : outerOrder s outer = headerOrder outer header := by
  rw [outerOrder, ho, headerOrder, headerOrder, List.filterMap_filterMap]
  refine List.filterMap_congr fun item _ ↦ ?_
  by_cases h : item.column < s.exprs.length
  · have position : s.exprs.findIdx? (·.id == s.exprs[item.column].id) = some item.column := by
      rw [List.findIdx?_eq_some_iff_getElem]
      refine ⟨h, beq_self_eq_true _, fun j hj ↦ ?_⟩
      intro e
      have hj' : j < (s.exprs.map Tree.id).length := by simp; omega
      have h' : item.column < (s.exprs.map Tree.id).length := by simpa using h
      have same : (s.exprs.map Tree.id)[j] = (s.exprs.map Tree.id)[item.column] := by simpa using e
      rw [ids.getElem_inj_iff] at same
      omega
    rw [List.getElem?_eq_getElem h, Option.map_some, Option.bind_some]
    simp only [SortKey.of, position, Option.bind_eq_bind, Option.bind_some]
    cases outer[item.column]? with
    | none => rfl
    | some expr => rfl
  · rw [List.getElem?_eq_none (not_lt.1 h), List.getElem?_eq_none (length ▸ not_lt.1 h)]
    rfl

/-! ### Selects that list rows -/

/-- The select gives the rows one after the other: it reads the columns of a row source by the
names of the table, sorts what it reads, and counts rows off. Where the server leaves out rows
by itself, the select sorts by its header; elsewhere it leaves out none. -/
structure Lists (I : Interpretation V) (db : Database V) (server : Server) (t : Table)
    (rows : List (List V)) (c : Compiled) : Prop where
  header : c.header = .ofTable t
  named : c.Named
  columns : c.select.columns ≠ []
  distinct : c.select.distinct = false
  orderBy : c.select.orderBy ≠ []
  reads : c.ReadsColumns
  flat : ∃ labels, (c.denoted I db).IsFlat labels
  sorted : server.offset = true → c.select.orderBy = headerOrder c.select.exprs c.header
  offset : server.offset = false → c.select.offset = none
  length : ((c.denoted I db).ordered I).length < 2 ^ 63
  counts : ∃ leaving taking, Tree.AllCountTo I db c.select.offset leaving ∧
    Tree.AllCountTo I db c.select.limit taking ∧
    rows = Relation.pageOf leaving taking (((c.denoted I db).ordered I).map Record.values)

namespace Lists

/-- The records of the select are the rows. -/
theorem records_eq (hI : I.CountsExactly) (hc : c.Lists I db server t rows) :
    ((c.denoted I db).records I).map Record.values = rows := by
  obtain ⟨leaving, taking, hl, ht, rfl⟩ := hc.counts
  have records : (c.denoted I db).records I =
      Relation.pageOf (V := String × V) leaving taking ((c.denoted I db).ordered I) := by
    rw [← hl.count?_eq hI, ← ht.count?_eq hI]
    rfl
  rw [records, Relation.map_pageOf]

theorem length_records (hI : I.CountsExactly) (hc : c.Lists I db server t rows) :
    ((c.denoted I db).records I).length < 2 ^ 63 := by
  have records := congrArg List.length (hc.records_eq hI)
  obtain ⟨leaving, taking, -, -, rfl⟩ := hc.counts
  have fewer := (Relation.pageOf_sublist leaving taking
    (((c.denoted I db).ordered I).map Record.values)).length_le
  rw [List.length_map] at records fewer
  exact records ▸ fewer.trans_lt hc.length

/-- A limit takes of the rows. -/
theorem limit (hI : I.CountsExactly) (hc : c.Lists I db server t rows) {u : Tree} {n : Nat}
    (hu : u.CountsTo I db n) {isOrdered : Bool} (h : c.limit u isOrdered d = .ok (c', d')) :
    c'.Lists I db server t (Relation.pageOf none (some n) rows) := by
  obtain ⟨l, hl, rfl⟩ := limit_ok h
  obtain ⟨leaving, taking, hleaving, htaking, rfl⟩ := hc.counts
  let limited : Compiled := ⟨{ c.select with limit := some l }, c.header⟩
  have same : limited.ordered isOrdered = limited :=
    ordered_of_ne_nil (c := limited) hc.orderBy isOrdered
  rw [same]
  obtain ⟨m, hm, page⟩ : ∃ m, l.CountsTo I db m ∧ ∀ all : List (List V),
      Relation.pageOf none (some n) (Relation.pageOf leaving taking all) =
        Relation.pageOf leaving (some m) all := by
    rcases hlimit : c.select.limit with _ | existing
    · rw [hlimit] at hl htaking
      cases htaking
      cases hl
      exact ⟨n, hu, fun all ↦ rfl⟩
    · rw [hlimit] at hl htaking
      obtain @⟨_, k, hk⟩ := htaking
      refine ⟨min k n, Tree.countsTo_minCount hI hk hu hl, fun all ↦ ?_⟩
      simp only [Relation.pageOf, Option.getD_none, List.drop_zero]
      rw [List.take_take, min_comm]
  obtain ⟨labels, flat⟩ := hc.flat
  exact { hc with
    named := ⟨hc.named.names, hc.named.nodup⟩
    reads := hc.reads
    flat := ⟨labels, flat.grouped, flat.exprs, flat.orderBy, flat.filter, flat.source⟩
    counts := ⟨leaving, some m, hleaving, .some hm, page _⟩ }

/-- An offset drops of the rows, where the select does not limit them. -/
theorem skip (hI : I.CountsExactly) (hc : c.Lists I db server t rows)
    (hs : server.offset = true) (hlimit : c.select.limit = none) {u : Tree} {n : Nat}
    (hu : u.CountsTo I db n) {isOrdered : Bool} (h : c.offset u isOrdered d = .ok (c', d')) :
    c'.Lists I db server t (Relation.pageOf (some n) none rows) := by
  obtain ⟨l, hl, rfl⟩ := offset_ok h
  obtain ⟨leaving, taking, hleaving, htaking, rfl⟩ := hc.counts
  rw [hlimit] at htaking
  cases htaking
  let skipped : Compiled := ⟨{ c.select with offset := some l }, c.header⟩
  have same : skipped.ordered isOrdered = skipped :=
    ordered_of_ne_nil (c := skipped) hc.orderBy isOrdered
  rw [same]
  obtain ⟨m, hm, page⟩ : ∃ m, l.CountsTo I db m ∧ ∀ all : List (List V), all.length < 2 ^ 63 →
      Relation.pageOf (some n) none (Relation.pageOf leaving none all) =
        Relation.pageOf (some m) none all := by
    rcases hoffset : c.select.offset with _ | existing
    · rw [hoffset] at hl hleaving
      cases hleaving
      cases hl
      exact ⟨n, hu, fun all _ ↦ rfl⟩
    · rw [hoffset] at hl hleaving
      obtain @⟨_, k, hk⟩ := hleaving
      obtain ⟨m, hm, alike⟩ := Tree.countsTo_sumCounts hI hk hu hl
      refine ⟨m, hm, fun all length ↦ ?_⟩
      simp only [Relation.pageOf, Option.getD_some]
      rw [List.drop_drop, alike.drop_eq length]
  obtain ⟨labels, flat⟩ := hc.flat
  exact { hc with
    named := ⟨hc.named.names, hc.named.nodup⟩
    reads := hc.reads
    flat := ⟨labels, flat.grouped, flat.exprs, flat.orderBy, flat.filter, flat.source⟩
    offset := fun h ↦ (Bool.false_ne_true (h.symm.trans hs)).elim
    counts := ⟨some m, none, .some hm, hlimit ▸ .none, page _ (by simpa using hc.length)⟩ }

/-- The rows of a select that sorts by its header are its outputs in the order of the header. -/
private theorem ofSorted {labels : List String} {outputs : List (List V)}
    (header : c.header = .ofTable t) (built : t.IsBuilt) (key : t.key ≠ []) (named : c.Named)
    (columns : c.select.columns ≠ []) (reads : c.ReadsColumns)
    (flat : (c.denoted I db).IsFlat labels) (ho : (c.denoted I db).outputs I = outputs)
    (distinct : c.select.distinct = false) (unpaged : c.select.limit = none ∧ c.select.offset = none)
    (sorted : c.select.orderBy = headerOrder c.select.exprs c.header)
    (length : outputs.length < 2 ^ 63) :
    c.Lists I db server t (Relation.sorted I (Header.ofTable t).order outputs) := by
  have fits : ∀ item ∈ c.header.order, item.column < c.select.exprs.length := by
    rw [reads.length_eq, header]
    exact built.orderFits
  have values := values_ordered_header flat columns distinct sorted fits
  have ordered : c.select.orderBy ≠ [] := by
    obtain ⟨i, hi⟩ := List.exists_mem_of_ne_nil _ key
    have item : (⟨i, true⟩ : SortItem) ∈ c.header.order := by
      rw [header]
      exact List.mem_map_of_mem hi
    have position : i < c.select.exprs.length := fits _ item
    rw [sorted]
    refine List.ne_nil_of_mem (a := .of c.select.exprs[i] true) ?_
    refine List.mem_filterMap.2 ⟨_, item, ?_⟩
    rw [List.getElem?_eq_getElem position, Option.map_some]
  refine ⟨header, named, columns, distinct, ordered, reads, ⟨labels, flat⟩, fun _ ↦ sorted,
    fun _ ↦ unpaged.2, ?_, none, none, unpaged.2 ▸ .none, unpaged.1 ▸ .none, ?_⟩
  · have same := congrArg List.length values
    rw [List.length_map, ho, Relation.sorted, List.length_mergeSort] at same
    exact same ▸ length
  · rw [values, ho, header]
    rfl

/-- A select that limits rows is read as a derived table before it leaves out any. The order of
the rows is that of the header, in which the outer select sorts them again. -/
theorem wrapFor (hI : I.CountsExactly) (hc : c.Lists I db server t rows) (built : t.IsBuilt)
    (key : t.key ≠ []) (held : c.Held d) (hs : server.offset = true)
    (order : rows.Pairwise (Relation.rowLt I (Header.ofTable t).order))
    (h : c.wrapFor .skip d = .ok (c', d')) :
    c'.Lists I db server t rows ∧ c'.select.limit = none := by
  unfold Compiled.wrapFor at h
  rcases hlimit : c.select.limit with _ | l
  · rw [if_neg (by simp [mustWrap, hlimit])] at h
    obtain ⟨rfl, -⟩ := pure_ok.1 h
    exact ⟨hc, hlimit⟩
  rw [if_pos (by simp [mustWrap, hlimit])] at h
  obtain ⟨query, d₁, source, d₂, outer, hq, hsource, houter, rfl⟩ := wrap_ok h
  have derived : c.derived = c.select := by
    rw [Compiled.derived, if_pos (by simp [Select.isPaged, hlimit])]
  have scopes : (source.meaning I db).scopes =
      (db.arranged (aliasName d.aliases) ((c.denoted I db).records I)).map
        fun record ↦ [(aliasName d.aliases, record)] := by
    rw [meaning_node hsource]
    simp only [Node.map, meaning_node hq, derived]
    rfl
  obtain ⟨columns, flat, outputs⟩ := outputs_selectAll houter
    (hc.named.columns_ne_nil hc.columns) scopes fun k hk ↦ mem_of_mem_outerOrder hk
  have arranged := (db.arranged_perm (aliasName d.aliases) ((c.denoted I db).records I)).map
    fun record ↦ c.header.names.map (record.get I)
  rw [hc.named.map_get_records hc.columns rfl, hc.records_eq hI] at arranged
  have named := named_selectAll houter hc.named.nodup
  have reads := readsColumns_selectAll houter none (outerOrder c.select outer.exprs)
  have sorted : outerOrder c.select outer.exprs = headerOrder outer.exprs c.header :=
    outerOrder_headerOrder (hc.sorted hs) (hc.reads.nodup_ids hc.named held)
      (reads.length_eq.trans hc.reads.length_eq.symm)
  obtain ⟨exprs, rfl, -⟩ := selectAll_ok houter
  refine ⟨?_, rfl⟩
  have length : rows.length < 2 ^ 63 := by
    have short := hc.length_records hI
    rwa [← List.length_map, hc.records_eq hI] at short
  let wrapped : Compiled := ⟨{
      columns := exprs.map (⟨·, none⟩), source := some source
      orderBy := outerOrder c.select (Select.exprs { columns := exprs.map (⟨·, none⟩) }) }, c.header⟩
  have lists : wrapped.Lists I db server t _ := ofSorted hc.header built key
    ⟨named.names, named.nodup⟩ columns reads flat outputs rfl ⟨rfl, rfl⟩ sorted
    (arranged.length_eq.trans_lt length)
  rw [Relation.sorted_eq_of_perm hI.le_trans hI.le_total arranged order] at lists
  exact lists

/-- A page by row numbers gives the rows of the page. -/
theorem numberedPage (hI : I.CountsExactly) (hc : c.Lists I db server t rows)
    (hs : server.offset = false) (stable : c.IsStable I db) {skip take : Option Scalar}
    (leaving : ∀ e ∈ skip, e.IsCount I) (taking : ∀ e ∈ take, e.IsCount I)
    (h : c.numberedPage skip take d = .ok (c', d')) :
    c'.Lists I db server t
      (Relation.pageOf (skip.bind (·.count? I)) (take.bind (·.count? I)) rows) := by
  have numberable : c.IsNumberable := ⟨hc.columns, hc.distinct, hc.offset hs, fun _ ↦ hc.orderBy⟩
  obtain ⟨flat, values⟩ := values_ordered_numberedPage hI numberable hc.orderBy hc.named stable
    (hc.length_records hI) leaving taking h
  rw [hc.records_eq hI] at values
  have named := hc.named.numberedPage h
  obtain ⟨number, d₁, query, d₂, source, d₃, outer, d₄, row, d₅, low, d₆, high, d₇, filter,
    -, -, -, houter, -, -, -, -, rfl⟩ := numberedPage_ok h
  have reads := readsColumns_selectAll houter filter [SortKey.of row true]
  have columns : outer.columns ≠ [] := by
    intro none
    have length := reads.length_eq
    rw [Select.exprs, none, List.map_nil, List.length_nil] at length
    exact hc.named.columns_ne_nil hc.columns (List.length_eq_zero_iff.1 length.symm)
  have length : rows.length < 2 ^ 63 := by
    have short := hc.length_records hI
    rwa [← List.length_map, hc.records_eq hI] at short
  obtain ⟨exprs, rfl, -⟩ := selectAll_ok houter
  refine ⟨hc.header, named, columns, rfl, List.cons_ne_nil _ _, reads, flat,
    fun h ↦ (Bool.false_ne_true (hs.symm.trans h)).elim, fun _ ↦ rfl, ?_, none, none, .none, .none,
    values.symm⟩
  have same := congrArg List.length values
  rw [List.length_map] at same
  exact same ▸ (Relation.pageOf_sublist _ _ _).length_le.trans_lt length

end Lists

/-- A table in the order of its key lists its rows. -/
theorem lists_ofTable (server : Server) (built : t.IsBuilt) (key : t.key ≠ [])
    (length : (db.table t.schema t.name).length < 2 ^ 63) (h : ofTable t d = .ok (c, d')) :
    (c.ordered true).Lists I db server t ((Relation.table t).rows I db) ∧
      c.select.isPaged = false := by
  obtain ⟨source, d₁, hs, houter, header⟩ := ofTable_ok h
  have named := named_ofTable h
  obtain ⟨select, _⟩ := c
  subst header
  have scopes : (source.meaning I db).scopes =
      (db.table t.schema t.name).map fun record ↦ [(aliasName d.aliases, record)] := by
    rw [meaning_node hs]
    rfl
  have headed : (Header.ofTable t).columns ≠ [] := by
    have size : (Header.ofTable t).columns.length = t.columns.length := Header.size_ofTable t
    rw [← List.length_pos_iff, size, List.length_pos_iff]
    exact built.names_nodup.1
  obtain ⟨columns, flat, outputs⟩ := outputs_selectAll houter headed scopes
    fun k (hk : k ∈ headerOrder select.exprs (.ofTable t)) ↦ mem_of_mem_headerOrder hk
  have reads := readsColumns_selectAll houter none (headerOrder select.exprs (.ofTable t))
  obtain ⟨exprs, rfl, -⟩ := selectAll_ok houter
  refine ⟨?_, rfl⟩
  let sorted : Compiled := ⟨{
      columns := exprs.map (⟨·, none⟩), source := some source
      orderBy := headerOrder (Select.exprs { columns := exprs.map (⟨·, none⟩) }) (.ofTable t) },
    .ofTable t⟩
  have lists : sorted.Lists I db server t _ := Lists.ofSorted rfl built key
    ⟨named.names, named.nodup⟩ columns reads flat outputs rfl ⟨rfl, rfl⟩ rfl (by simpa using length)
  rw [names_ofTable built.names_nodup.2] at lists
  simp only [List.map_map] at lists
  exact lists

/-! ### Orderings that are wanted -/

theorem ordered_ordered (c : Compiled) (isWanted : Bool) :
    (c.ordered isWanted).ordered isWanted = c.ordered isWanted := by
  cases isWanted with
  | false => rfl
  | true =>
    by_cases h : c.select.orderBy = []
    · simp only [ordered, h, List.isEmpty_nil, Bool.and_self, if_true]
      split <;> rfl
    · rw [ordered_of_ne_nil h, ordered_of_ne_nil h]

theorem limit_ordered (c : Compiled) (u : Tree) (isOrdered : Bool) :
    (c.ordered isOrdered).limit u isOrdered = c.limit u isOrdered := by
  have existing : (c.ordered isOrdered).select.limit = c.select.limit := by
    unfold ordered
    split <;> rfl
  have limited (l : Tree) : ordered ⟨{ (c.ordered isOrdered).select with limit := some l },
        (c.ordered isOrdered).header⟩ isOrdered =
      ordered ⟨{ c.select with limit := some l }, c.header⟩ isOrdered := by
    rw [← ordered_ordered ⟨{ c.select with limit := some l }, c.header⟩]
    congr 1
    unfold ordered
    split <;> rfl
  simp only [limit, existing, limited]

theorem offset_ordered (c : Compiled) (u : Tree) (isOrdered : Bool) :
    (c.ordered isOrdered).offset u isOrdered = c.offset u isOrdered := by
  have existing : (c.ordered isOrdered).select.offset = c.select.offset := by
    unfold ordered
    split <;> rfl
  have skipped (l : Tree) : ordered ⟨{ (c.ordered isOrdered).select with offset := some l },
        (c.ordered isOrdered).header⟩ isOrdered =
      ordered ⟨{ c.select with offset := some l }, c.header⟩ isOrdered := by
    rw [← ordered_ordered ⟨{ c.select with offset := some l }, c.header⟩]
    congr 1
    unfold ordered
    split <;> rfl
  simp only [offset, existing, skipped]

/-- Before rows are left out, a select that limits them is wrapped, whether it is ordered or is to
be. -/
theorem Lists.wrapFor_ordered (hI : I.CountsExactly) {isOrdered : Bool}
    (hc : (c.ordered isOrdered).Lists I db server t rows)
    (unpaged : isOrdered = true → c.select.isPaged = false) (built : t.IsBuilt) (key : t.key ≠ [])
    (held : c.Held d) (hs : server.offset = true)
    (order : rows.Pairwise (Relation.rowLt I (Header.ofTable t).order))
    (h : c.wrapFor .skip d = .ok (c', d')) :
    (c'.ordered isOrdered).Lists I db server t rows ∧
      (c'.ordered isOrdered).select.limit = none := by
  cases isOrdered with
  | false => exact hc.wrapFor hI built key held hs order h
  | true =>
    have none : c.select.limit = none := by
      have unpaged := unpaged rfl
      simp only [Select.isPaged, Bool.or_eq_false_iff, Option.isSome_eq_false_iff,
        Option.isNone_iff_eq_none] at unpaged
      exact unpaged.1
    unfold Compiled.wrapFor at h
    rw [if_neg (by simp [mustWrap, none])] at h
    obtain ⟨rfl, -⟩ := pure_ok.1 h
    refine ⟨hc, ?_⟩
    unfold ordered
    split <;> exact none

/-- Rows of a select without pages are numbered as they would be ordered. -/
theorem numberedPage_ordered (hp : c.select.isPaged = false) (isOrdered : Bool)
    (skip take : Option Scalar) :
    (c.ordered isOrdered).numberedPage skip take = c.numberedPage skip take := by
  cases isOrdered with
  | false => rfl
  | true =>
    by_cases h : c.select.orderBy = []
    · let byHeader := headerOrder c.select.exprs c.header
      let byFirst := (c.select.exprs.take 1).map (SortKey.of · true)
      have sorted : c.ordered true = ⟨{ c.select with orderBy := byHeader }, c.header⟩ := by
        simp [ordered, h, byHeader]
      have order : (c.ordered true).numberingOrder = c.numberingOrder := by
        have plain : c.numberingOrder = if !byHeader.isEmpty then byHeader else byFirst := by
          rw [numberingOrder, h]
          rfl
        have wanted : (c.ordered true).numberingOrder =
            if !byHeader.isEmpty then byHeader
            else if !byHeader.isEmpty then byHeader else byFirst := by
          rw [sorted]
          rfl
        rw [wanted, plain]
        cases byHeader.isEmpty <;> rfl
      have numbered : (c.ordered true).numbered = c.numbered := by
        rw [Compiled.numbered, order, sorted, Compiled.numbered]
        simp only [Select.isPaged] at hp
        simp only [Select.isPaged, hp, Bool.false_eq_true, if_false]
        rfl
      rw [Compiled.numberedPage, numbered, sorted]
      rfl
    · rw [ordered_of_ne_nil h]

end Compiled

/-! ### Chains -/

/-- A server that leaves out rows by itself limits them by itself as well. -/
theorem Server.limit_of_offset (dialect : Dialect) (version : Version)
    (h : (capabilities dialect version).offset = true) :
    (capabilities dialect version).limit = true := by
  cases dialect with
  | postgreSql | sqlServer => rfl
  | oracle => exact h

namespace Strategy

/-- Of the standard strategies the native one makes a page if the server has the clauses, and
else the other one. -/
theorem attemptPage_standard {hasClauses : Bool} {source : Drafting (Option Compiled)}
    {change : Compiled → Drafting Compiled} {skip take : Option Scalar} {c : Compiled}
    (never : ∀ d d', source d ≠ .ok (none, d'))
    (h : firstOf (attemptPage server hasClauses source change skip take) standard d =
      .ok (some c, d')) :
    ∃ c₁ d₁, source d = .ok (some c₁, d₁) ∧
      (hasClauses = true ∧ change c₁ d₁ = .ok (c, d') ∨
        hasClauses = false ∧ c₁.numberedPage skip take d₁ = .ok (c, d')) := by
  obtain ⟨o, d₁, first, h⟩ := bind_ok.1 h
  simp only [attemptPage] at first
  cases hasClauses with
  | true =>
    cases o with
    | none =>
      rw [if_pos rfl] at first
      obtain ⟨o', d₂, hs, first⟩ := bind_ok.1 first
      cases o' with
      | none => exact (never _ _ hs).elim
      | some c₁ =>
        simp only [bind_ok, pure_ok, reduceCtorEq, false_and, and_false, exists_false] at first
    | some c' =>
      obtain ⟨hc, rfl⟩ := pure_ok.1 h
      cases hc
      obtain ⟨c₁, d₂, hs, hc⟩ := on_ok first
      exact ⟨c₁, d₂, hs, .inl ⟨rfl, hc⟩⟩
  | false =>
    obtain ⟨rfl, rfl⟩ := pure_ok.1 first
    obtain ⟨o', d₂, second, h⟩ := bind_ok.1 h
    simp only [attemptPage] at second
    split at second
    · cases o' with
      | none => simp only [firstOf, pure_ok, reduceCtorEq, false_and] at h
      | some c' =>
        obtain ⟨hc, rfl⟩ := pure_ok.1 h
        cases hc
        obtain ⟨c₁, d₃, hs, hc⟩ := on_ok second
        exact ⟨c₁, d₃, hs, .inr ⟨rfl, hc⟩⟩
    · obtain ⟨rfl, -⟩ := pure_ok.1 second
      simp only [firstOf, pure_ok, reduceCtorEq, false_and] at h

end Strategy

namespace Relation

/-- The relation takes pages of pages, the first of the table, by counts. -/
def IsPagesOf (I : Interpretation V) (t : Table) : Relation → Prop
  | table t' => t' = t
  | take r count => r.IsPagesOf I t ∧ count.IsCount I
  | skip r count => r.IsPagesOf I t ∧ count.IsCount I
  | page r leaving taking => r.IsPagesOf I t ∧ leaving.IsCount I ∧ taking.IsCount I
  | native _ _ | filter _ _ | project _ _ | extend _ _ | join _ _ _ _ | aggregate _ _ _ | sort _ _
  | distinct _ | lock _ _ => False

variable {r : Relation}

/-- Pages of pages come strictly in the order of the key of the table. -/
theorem IsPagesOf.pairwise (hI : I.CountsExactly) (unique : t.HasUniqueKey I db)
    (hr : r.IsPagesOf I t) : (r.rows I db).Pairwise (rowLt I (Header.ofTable t).order) := by
  have page {source : Relation} (leaving taking : Option Nat)
      (h : (source.rows I db).Pairwise (rowLt I (Header.ofTable t).order)) :
      (pageOf leaving taking (source.rows I db)).Pairwise (rowLt I (Header.ofTable t).order) :=
    h.sublist (pageOf_sublist _ _ _)
  induction r with
  | table t' =>
    obtain rfl := hr
    exact pairwise_sorted_of_unique hI.le_trans hI.le_total unique
  | take r count ih | skip r count ih => exact page _ _ (ih hr.1)
  | page r leaving taking ih => exact page _ _ (ih hr.1)
  | native _ _ | filter _ _ _ | project _ _ _ | extend _ _ _ | join _ _ _ _ _ _ | aggregate _ _ _ _
  | sort _ _ _ | distinct _ _ | lock _ _ _ => exact hr.elim

omit [DecidableEq V] in
theorem IsPagesOf.wellFormed (hr : r.IsPagesOf I t) : r.WellFormed := by
  induction r with
  | table _ => trivial
  | take r count ih | skip r count ih => exact ⟨ih hr.1, hr.2.fits⟩
  | page r leaving taking ih => exact ⟨ih hr.1, hr.2.1.fits, hr.2.2.fits⟩
  | native _ _ | filter _ _ _ | project _ _ _ | extend _ _ _ | join _ _ _ _ _ _ | aggregate _ _ _ _
  | sort _ _ _ | distinct _ _ | lock _ _ _ => exact hr.elim

/-- The select of a page by row numbers lists the rows of the page, if that of its source lists
the rows of the source once it is ordered. -/
private theorem lists_numbered (hI : I.CountsExactly) {p : Relation} {skip take : Option Scalar}
    {c c' : Compiled} {d₁ : Draft} (hp : r.IsPage p skip take)
    (leaving : ∀ e ∈ skip, e.IsCount I) (taking : ∀ e ∈ take, e.IsCount I)
    (hs : r.draft server Strategy.standard d = .ok (some c, d₁))
    (lists : (c.ordered !r.isPaging).Lists I db server t (r.rows I db))
    (unpaged : r.isPaging = false → c.select.isPaged = false) (ho : server.offset = false)
    (h : c.numberedPage skip take d₁ = .ok (c', d')) :
    (c'.ordered !p.isPaging).Lists I db server t (p.rows I db) := by
  have stable : c.IsStable I db := (drafted_of_draft hs).isStable
  have same : (c.ordered !r.isPaging).numberedPage skip take = c.numberedPage skip take := by
    cases hp : r.isPaging with
    | true => rfl
    | false => exact numberedPage_ordered (unpaged hp) _ skip take
  rw [← same] at h
  have paged := lists.numberedPage hI ho (stable.draws (draws_ordered _ _)) leaving taking h
  cases hp with
  | take _ | skip _ | page _ _ => exact paged

/-- The select of pages of pages lists their rows. -/
theorem IsPagesOf.lists (hI : I.CountsExactly) (hr : r.IsPagesOf I t) (built : t.IsBuilt)
    (key : t.key ≠ []) (unique : t.HasUniqueKey I db)
    (length : (db.table t.schema t.name).length < 2 ^ 63) (pages : server.Pages)
    (limits : server.offset = true → server.limit = true) (hd : d.Started) {c : Compiled}
    (h : r.draft server Strategy.standard d = .ok (some c, d')) :
    (c.ordered !r.isPaging).Lists I db server t (r.rows I db) ∧
      (r.isPaging = false → c.select.isPaged = false) := by
  have never (r : Relation) (d d' : Draft) : r.draft server Strategy.standard d ≠ .ok (none, d') :=
    fun hn ↦ (offers_draft r).none hn (taken_standard pages r)
  induction r generalizing d d' c with
  | table t' =>
    obtain rfl := hr
    obtain ⟨o, d₁, first, h⟩ := bind_ok.1 h
    obtain ⟨c₁, hc, rfl⟩ := map_ok.1 first
    obtain ⟨same, -⟩ := pure_ok.1 h
    cases same
    obtain ⟨lists, unpaged⟩ := lists_ofTable server built key length hc
    exact ⟨lists, fun _ ↦ unpaged⟩
  | take r count ih =>
    obtain ⟨c₁, d₁, hs, ⟨-, hc⟩ | ⟨hl, hc⟩⟩ := Strategy.attemptPage_standard (never r) h
    · obtain ⟨u, d₂, hu, hc⟩ := bind_ok.1 hc
      obtain ⟨n, value, number⟩ := hr.2.value_eq hI
      rw [← limit_ordered] at hc
      have lists := (ih hr.1 hd hs).1.limit hI (.ofScalar hu value) hc
      rw [← number] at lists
      exact ⟨lists, nofun⟩
    · obtain ⟨lists, unpaged⟩ := ih hr.1 hd hs
      refine ⟨lists_numbered hI (.take count) (by simp) (by simpa using hr.2) hs lists unpaged ?_ hc,
        nofun⟩
      exact Bool.eq_false_iff.2 fun ho ↦ Bool.false_ne_true (hl.symm.trans (limits ho))
  | skip r count ih =>
    obtain ⟨c₁, d₁, hs, ⟨ho, hc⟩ | ⟨ho, hc⟩⟩ := Strategy.attemptPage_standard (never r) h
    · obtain ⟨w, d₂, hw, hc⟩ := bind_ok.1 hc
      obtain ⟨u, d₃, hu, hc⟩ := bind_ok.1 hc
      obtain ⟨n, value, number⟩ := hr.2.value_eq hI
      obtain ⟨lists, unpaged⟩ := ih hr.1 hd hs
      obtain ⟨wrapped, unlimited⟩ := lists.wrapFor_ordered hI (by simpa using unpaged) built key
        ((drafted_of_draft hs).held hd) ho (hr.1.pairwise hI unique) hw
      rw [← offset_ordered] at hc
      have lists := wrapped.skip hI ho unlimited (.ofScalar hu value) hc
      rw [← number] at lists
      exact ⟨lists, nofun⟩
    · obtain ⟨lists, unpaged⟩ := ih hr.1 hd hs
      exact ⟨lists_numbered hI (.skip count) (by simpa using hr.2) (by simp) hs lists unpaged ho hc,
        nofun⟩
  | page r leaving taking ih =>
    obtain ⟨c₁, d₁, hs, ⟨both, hc⟩ | ⟨missing, hc⟩⟩ := Strategy.attemptPage_standard (never r) h
    · have ho : server.offset = true := (Bool.and_eq_true_iff.1 both).2
      obtain ⟨w, d₂, hw, hc⟩ := bind_ok.1 hc
      obtain ⟨u, d₃, hu, hc⟩ := bind_ok.1 hc
      obtain ⟨s, d₄, hskip, hc⟩ := bind_ok.1 hc
      obtain ⟨v, d₅, hv, hc⟩ := bind_ok.1 hc
      obtain ⟨m, valueM, numberM⟩ := hr.2.1.value_eq hI
      obtain ⟨n, valueN, numberN⟩ := hr.2.2.value_eq hI
      obtain ⟨lists, unpaged⟩ := ih hr.1 hd hs
      obtain ⟨wrapped, unlimited⟩ := lists.wrapFor_ordered hI (by simpa using unpaged) built key
        ((drafted_of_draft hs).held hd) ho (hr.1.pairwise hI unique) hw
      rw [← offset_ordered] at hskip
      have skipped := wrapped.skip hI ho unlimited (.ofScalar hu valueM) hskip
      have lists := skipped.limit hI (.ofScalar hv valueN) hc
      rw [← numberM, ← numberN] at lists
      exact ⟨lists, nofun⟩
    · obtain ⟨lists, unpaged⟩ := ih hr.1 hd hs
      refine ⟨lists_numbered hI (.page leaving taking) (by simpa using hr.2.1)
        (by simpa using hr.2.2) hs lists unpaged ?_ hc, nofun⟩
      exact Bool.eq_false_iff.2 fun ho ↦
        Bool.false_ne_true (missing.symm.trans (Bool.and_eq_true_iff.2 ⟨limits ho, ho⟩))
  | native _ _ | filter _ _ _ | project _ _ _ | extend _ _ _ | join _ _ _ _ _ _ | aggregate _ _ _ _
  | sort _ _ _ | distinct _ _ | lock _ _ _ => exact hr.elim

/-- On every server the statement of pages of pages gives their rows one after the other: those
of the table in the order of its key, of which each page takes and drops some. So it does in
whatever order the server reads the rows of derived tables. A table of which no page is taken comes
in some order. -/
theorem statement_pages (I : Interpretation V) (db : Database V) (hI : I.CountsExactly)
    (built : t.IsBuilt) (key : t.key ≠ []) (unique : t.HasUniqueKey I db)
    (length : (db.table t.schema t.name).length < 2 ^ 63) (hr : r.IsPagesOf I t)
    (dialect : Dialect) (version : Version) :
    ∃ s, r.statement (.capabilities dialect version) Strategy.standard = .ok s ∧
      ((s.tree.records I db).map Record.values).Perm (r.rows I db) ∧
      (r.isPaging → (s.tree.records I db).map Record.values = r.rows I db) := by
  have pages := Server.pages_capabilities dialect version
  obtain ⟨s, hs⟩ := exists_statement_iff.2 ⟨taken_standard pages r, hr.wellFormed⟩
  refine ⟨s, hs, ?_⟩
  obtain ⟨c, d, hc, rfl⟩ := statement_ok hs
  obtain ⟨lists, -⟩ := hr.lists hI built key unique length pages
    (Server.limit_of_offset dialect version) started_empty hc
  rw [records_made]
  cases hp : r.isPaging with
  | true =>
    rw [hp] at lists
    have rows := lists.records_eq hI
    exact ⟨.of_eq rows, fun _ ↦ rows⟩
  | false =>
    refine ⟨?_, fun h ↦ absurd h Bool.false_ne_true⟩
    have plain : r.IsPlain := by
      cases r with
      | table t' => exact hr ▸ built
      | take _ _ | skip _ _ | page _ _ _ => cases hp
      | native _ _ | filter _ _ | project _ _ | extend _ _ | join _ _ _ _ | aggregate _ _ _
      | sort _ _ | distinct _ | lock _ _ => exact hr.elim
    obtain ⟨-, labels, yields, -⟩ : c.header.types = r.types ∧
        ∃ labels, c.Yields I db (r.rows I db) labels ∧ Given {} d labels :=
      (drafted_of_draft hc).yields plain
    rw [Select.records_of_unpaged (isPaged_denoted.trans yields.unpaged)]
    exact Select.values_ordered_perm.trans yields.rows

/-- The second of the first three rows of a table; how many are left out is a parameter. -/
def secondRow : Relation :=
  take (skip (take (table valueTable) (.constant (.integer 3))) (.parameter ⟨0, "left"⟩))
    (.constant (.integer 1))

/-- Integers, of which one is bound to every parameter. -/
def onesBound : Interpretation (Option Int) := .integers fun _ ↦ some 1

/-- SQL Server 2005 takes the first three rows by itself, numbers them to leave one out, and
takes the next one by itself again. -/
theorem statement_pages_of_secondRow :
    onesBound.CountsExactly ∧ valueTable.IsBuilt ∧ valueTable.key ≠ [] ∧
      valueTable.HasUniqueKey onesBound twoSevens ∧
      (twoSevens.table valueTable.schema valueTable.name).length < 2 ^ 63 ∧
      secondRow.IsPagesOf onesBound valueTable ∧
      ∃ s, secondRow.statement (.capabilities .sqlServer ⟨9, 0⟩) Strategy.standard = .ok s ∧
        ((s.tree.records onesBound twoSevens).map Record.values).Perm
          (secondRow.rows onesBound twoSevens) ∧
        (secondRow.isPaging → (s.tree.records onesBound twoSevens).map Record.values =
          secondRow.rows onesBound twoSevens) := by
  have counts : onesBound.CountsExactly := Interpretation.countsExactly_integers _
  have built : valueTable.IsBuilt := ⟨["id"], rfl⟩
  have chain : secondRow.IsPagesOf onesBound valueTable :=
    ⟨⟨⟨rfl, .constant (by decide)⟩, .parameter (n := 1) rfl⟩, .constant (by decide)⟩
  have short : (twoSevens.table valueTable.schema valueTable.name).length < 2 ^ 63 := by
    decide
  have unique : valueTable.HasUniqueKey onesBound twoSevens := by
    simp only [Table.HasUniqueKey]
    decide
  exact ⟨counts, built, List.cons_ne_nil _ _, unique, short, chain,
    statement_pages _ _ counts built (List.cons_ne_nil _ _) unique short chain .sqlServer ⟨9, 0⟩⟩

end Relation

end SqlWright
