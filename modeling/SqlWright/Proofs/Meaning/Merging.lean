import SqlWright.Proofs.Drafting.Expressions
import SqlWright.Proofs.Meaning.Outputs
import SqlWright.Proofs.Relation.Names

/-!
# Merging operations into selects

`Compiled.Yields` says which rows a select without pages gives. An operation is merged into
the select of its source only if it commutes with what the select does already; else the
select is read as a derived table first, which yields the same rows.
-/

namespace SqlWright

variable {V : Type} [DecidableEq V] {I : Interpretation V} {db : Database V} {d d' : Draft}

open Drafting Draft Meaning

namespace Compiled

/-- Select of what the links denote. -/
def denoted (I : Interpretation V) (db : Database V) (c : Compiled) : Select (Meaning V) :=
  c.select.map (Tree.meaning I db)

variable {c c' : Compiled} {rows : List (List V)} {labels : List String}

theorem exprs_denoted : (c.denoted I db).exprs = c.select.exprs.map (Tree.meaning I db) := by
  simp [denoted, Select.exprs, Select.map, OutputColumn.map]

theorem isGrouped_denoted : (c.denoted I db).isGrouped = c.select.isGrouped := by
  simp [denoted, Select.isGrouped, Select.map]

theorem isPaged_denoted : (c.denoted I db).isPaged = c.select.isPaged := by
  simp [denoted, Select.isPaged, Select.map]

/-- A tree with a select has the records of the select. -/
theorem records_made : (d.made (.select c.select)).records I db = (c.denoted I db).records I := by
  rw [Tree.records, Tree.meaning_eq]
  rfl

theorem columns_denoted : (c.denoted I db).columns ≠ [] ↔ c.select.columns ≠ [] := by
  simp [denoted, Select.map]

/-- The select gives all its rows, and they are the given ones in some order. Without groups it
is flat over the aliases of its row source. -/
structure Yields (I : Interpretation V) (db : Database V) (rows : List (List V))
    (labels : List String) (c : Compiled) : Prop where
  unpaged : c.select.isPaged = false
  having : c.select.having = none
  columns : c.select.columns ≠ []
  stable : ∀ m ∈ (c.denoted I db).exprs, m.IsStable
  flat : c.select.isGrouped = false → (c.denoted I db).IsFlat labels
  rows : ((c.denoted I db).rows I).Perm rows

/-! ### Derived tables -/

/-- Each column of a select of all columns reads its column of the row source. -/
theorem reads_selectAll {source : Tree} {label : String} {header : Header} {s : Select Tree}
    (h : selectAll source label header d = .ok (s, d')) :
    List.Forall₂ (Reads I label) (s.exprs.map (Tree.meaning I db)) header.names := by
  obtain ⟨exprs, rfl, he⟩ := selectAll_ok h
  have nodes := List.forall₂_eq_eq_eq ▸ he
  rw [List.forall₂_map_left_iff, List.forall₂_map_right_iff] at nodes
  rw [Header.names, List.forall₂_map_left_iff, List.forall₂_map_right_iff, Select.exprs]
  simp only [List.map_map]
  have same : exprs.map (OutputColumn.expr ∘ (⟨·, none⟩)) = exprs := List.map_id exprs
  rw [same]
  refine nodes.imp fun t c ht ↦ ?_
  have meaning := t.meaning_eq I db
  rw [ht] at meaning
  rw [meaning]
  exact ⟨rfl, fun _ ↦ rfl⟩

/-- A select of all columns of a row source with one alias puts out the columns of the records. -/
theorem outputs_selectAll {source : Tree} {label : String} {header : Header} {s : Select Tree}
    {records : List (Record V)} {orderBy : List (SortKey Tree)}
    (h : selectAll source label header d = .ok (s, d')) (hh : header.columns ≠ [])
    (scopes : (source.meaning I db).scopes = records.map fun record ↦ [(label, record)])
    (order : ∀ k ∈ orderBy, k.expr ∈ s.exprs) :
    s.columns ≠ [] ∧ (denoted I db ⟨{ s with orderBy }, header⟩).IsFlat [label] ∧
      (denoted I db ⟨{ s with orderBy }, header⟩).outputs I =
        records.map fun record ↦ header.names.map (record.get I) := by
  have reads : List.Forall₂ (Reads I label) (s.exprs.map (Tree.meaning I db)) header.names :=
    reads_selectAll h
  obtain ⟨exprs, rfl, he⟩ := selectAll_ok h
  have columns : exprs ≠ [] := by
    rintro rfl
    exact hh (List.map_eq_nil_iff.1 he.symm)
  let c : Compiled := ⟨{ columns := exprs.map (⟨·, none⟩), source := some source, orderBy }, header⟩
  have hc : (c.denoted I db).columns ≠ [] := columns_denoted.2 (by simpa [c] using columns)
  have sorted : ∀ k ∈ (c.denoted I db).orderBy, k.expr ∈ (c.denoted I db).exprs := by
    intro k hk
    obtain ⟨k', hk', rfl⟩ := List.mem_map.1 hk
    rw [exprs_denoted]
    exact List.mem_map_of_mem (order k' hk')
  have read : List.Forall₂ (Reads I label) (c.denoted I db).exprs header.names := by
    rw [exprs_denoted]
    exact reads
  exact ⟨by simpa using columns, Select.outputs_selectAll hc rfl rfl sorted rfl scopes read⟩

/-- A select of all columns of a row source with one alias yields the columns of the records. -/
theorem yields_selectAll {source : Tree} {label : String} {header : Header} {s : Select Tree}
    {records : List (Record V)} {orderBy : List (SortKey Tree)}
    (h : selectAll source label header d = .ok (s, d')) (hh : header.columns ≠ [])
    (scopes : (source.meaning I db).scopes = records.map fun record ↦ [(label, record)])
    (order : ∀ k ∈ orderBy, k.expr ∈ s.exprs) :
    Yields I db (records.map fun record ↦ header.names.map (record.get I)) [label]
      ⟨{ s with orderBy }, header⟩ := by
  obtain ⟨columns, flat, outputs⟩ := outputs_selectAll h hh scopes order
  obtain ⟨exprs, rfl, -⟩ := selectAll_ok h
  exact ⟨rfl, rfl, columns, fun m hm ↦ (flat.exprs m hm).isStable, fun _ ↦ flat, .of_eq outputs⟩

/-- The header of a table has the names of its columns. -/
theorem names_ofTable {t : Table} (hn : (t.columns.map (·.name)).Nodup) :
    (Header.ofTable t).names = t.columns.map (·.name) := by
  have given : ((t.columns.map fun c ↦ (⟨c.name, c.type⟩ : HeaderColumn)).map (·.name)) =
      t.columns.map (·.name) := by rw [List.map_map]; rfl
  rw [Header.ofTable, Header.names_withOrder, Header.names_ofColumns (given ▸ hn), given]

/-- A stored table yields its rows. -/
theorem yields_ofTable {t : Table} (ht : t.columns ≠ []) (hn : (t.columns.map (·.name)).Nodup)
    (h : ofTable t d = .ok (c, d')) :
    c.Yields I db ((Relation.table t).rows I db) [aliasName d.aliases] := by
  obtain ⟨source, d₁, hs, hc, hh⟩ := ofTable_ok h
  have names := names_ofTable hn
  have columns : (Header.ofTable t).columns ≠ [] := by
    intro he
    have none := congrArg List.length names
    rw [Header.names, he, List.map_nil, List.length_map, List.length_nil] at none
    exact ht (List.length_eq_zero_iff.1 none.symm)
  have scopes : (source.meaning I db).scopes =
      (db.table t.schema t.name).map fun record ↦ [(aliasName d.aliases, record)] := by
    rw [meaning_node hs]
    rfl
  have yields : Yields I db _ _ ⟨{ c.select with orderBy := [] }, .ofTable t⟩ :=
    yields_selectAll hc columns scopes fun _ hk ↦ absurd hk List.not_mem_nil
  have same : (⟨{ c.select with orderBy := [] }, .ofTable t⟩ : Compiled) = c := by
    obtain ⟨exprs, hselect, -⟩ := selectAll_ok hc
    obtain ⟨select, header⟩ := c
    obtain rfl : header = _ := hh
    obtain rfl : select = _ := hselect
    rfl
  rw [same] at yields
  refine { yields with rows := yields.rows.trans ?_ }
  rw [names, Relation.rows]
  refine .trans (.of_eq ?_) (List.mergeSort_perm _ _).symm
  simp

/-- A select without groups has none in what it denotes either, whatever it is ordered by. -/
theorem Yields.hasGroups (hc : c.Yields I db rows labels) :
    (c.denoted I db).hasGroups = c.select.isGrouped := by
  rcases hg : c.select.isGrouped with _ | _
  · exact (hc.flat hg).hasGroups
  · exact Select.hasGroups_of_isGrouped (isGrouped_denoted.trans hg)

/-- The name of an output column is that of what it denotes. -/
theorem name?_denoted (k : OutputColumn Tree) :
    (k.label <|> (k.expr.meaning I db).name?) = k.name? := by
  rw [OutputColumn.name?]
  congr 1
  rw [Tree.meaning_eq]
  cases k.expr.node with
  | column label name => cases label <;> rfl
  | _ => rfl

/-- A named select with columns has a header with columns. -/
theorem Named.columns_ne_nil (named : c.Named) (hc : c.select.columns ≠ []) :
    c.header.columns ≠ [] := by
  intro he
  have none := congrArg List.length named.names
  rw [Header.names, he, List.map_nil, List.map_nil, List.length_map, List.length_nil] at none
  exact hc (List.length_eq_zero_iff.1 none)

/-- The records of a select list have the names of its header. -/
theorem Named.names_of_mem_records (named : c.Named) (hc : c.select.columns ≠ [])
    {s : Select (Meaning V)} (columns : s.columns = (c.denoted I db).columns) {record : Record V}
    (hr : record ∈ s.records I) : record.map (·.1) = c.header.names := by
  rw [Select.names_of_mem_records (columns ▸ columns_denoted.2 hc) hr, columns]
  have given := congrArg (List.map fun o ↦ Option.getD o "") named.names
  rw [List.map_map, List.map_map] at given
  refine Eq.trans ?_ (given.trans (List.map_id _))
  rw [show (c.denoted I db).columns = c.select.columns.map (·.map (Tree.meaning I db)) from rfl,
    List.map_map]
  exact List.map_congr_left fun k _ ↦ congrArg (Option.getD · "") (name?_denoted k)

/-- Reading the records of a select list by the names of its header gives all their values. -/
theorem Named.map_get_records (named : c.Named) (hc : c.select.columns ≠ [])
    {s : Select (Meaning V)} (columns : s.columns = (c.denoted I db).columns) :
    (s.records I).map (fun record ↦ c.header.names.map (record.get I)) =
      (s.records I).map Record.values := by
  refine List.map_congr_left fun record hr ↦ ?_
  have names := named.names_of_mem_records hc columns hr
  rw [← names, Record.map_get]
  rw [names]
  exact named.nodup

/-- A wrapped select yields what it yielded before, under a new alias. -/
theorem Yields.wrap (hc : c.Yields I db rows labels) (named : c.Named)
    (h : c.wrap d = .ok (c', d')) : c'.Yields I db rows [aliasName d.aliases] := by
  obtain ⟨query, d₁, source, d₂, outer, hq, hs, ho, rfl⟩ := wrap_ok h
  have derived : c.derived = { c.select with orderBy := [] } := by
    rw [Compiled.derived, hc.unpaged]
    rfl
  rw [derived] at hq
  let inner : Select (Meaning V) := { c.denoted I db with orderBy := [] }
  have scopes : (source.meaning I db).scopes =
      (db.arranged (aliasName d.aliases) (inner.records I)).map
        fun record ↦ [(aliasName d.aliases, record)] := by
    rw [meaning_node hs]
    simp only [Node.map, meaning_node hq]
    rfl
  have columns := named.columns_ne_nil hc.columns
  have order : ∀ k ∈ outerOrder c.select outer.exprs, k.expr ∈ outer.exprs :=
    fun k hk ↦ mem_of_mem_outerOrder hk
  have yields := yields_selectAll ho columns scopes order
  refine { yields with
    rows := yields.rows.trans (((db.arranged_perm _ (inner.records I)).map _).trans ?_) }
  have read := named.map_get_records hc.columns (s := inner) rfl
  have outputs : inner.rows I = (c.denoted I db).rows I := by
    have groups : inner.hasGroups = (c.denoted I db).hasGroups := by
      rw [hc.hasGroups]
      rcases hg : c.select.isGrouped with _ | _
      · have flat := hc.flat hg
        exact Select.IsFlat.hasGroups ⟨flat.grouped, flat.exprs,
          fun _ hk ↦ absurd hk List.not_mem_nil, flat.filter, flat.source⟩
      · exact Select.hasGroups_of_isGrouped (isGrouped_denoted (c := c).trans hg)
    exact Select.rows_congr rfl rfl rfl rfl groups rfl
  rw [read, Select.records_of_unpaged (s := inner) (isPaged_denoted (c := c).trans hc.unpaged)]
  exact Select.values_ordered_perm.trans (outputs ▸ hc.rows)

/-- A select that takes up an operation yields what it yielded before, and is wrapped only to
take it up. -/
theorem Yields.wrapFor {op : Operation} (hc : c.Yields I db rows labels) (named : c.Named)
    (h : c.wrapFor op d = .ok (c', d')) :
    mustWrap c'.select op = false ∧ ∃ labels', c'.Yields I db rows labels' ∧
      (labels' = labels ∨ Given d d' labels') := by
  unfold Compiled.wrapFor at h
  split at h
  · refine ⟨?_, _, hc.wrap named h, .inr ?_⟩
    · obtain ⟨query, d₁, source, d₂, outer, -, -, ho, rfl⟩ := wrap_ok h
      obtain ⟨exprs, rfl, -⟩ := selectAll_ok ho
      cases op <;> rfl
    · intro l hl
      obtain ⟨query, d₁, source, d₂, outer, hq, hs, ho, -⟩ := wrap_ok h
      have grown := ((growing_selectAll _ _ _).grows ho).aliases
      rw [(node_ok.1 hs).2, (node_ok.1 hq).2] at grown
      exact ⟨d.aliases, le_rfl, grown, List.mem_singleton.1 hl⟩
  · next hw =>
    obtain ⟨rfl, rfl⟩ := pure_ok.1 h
    exact ⟨by simpa using hw, labels, hc, .inl rfl⟩

/-! ### Operations -/

/-- Rows that are not made distinct are the outputs. -/
theorem Yields.outputs (hc : c.Yields I db rows labels) (hd : c.select.distinct = false) :
    ((c.denoted I db).outputs I).Perm rows := by
  have same : (c.denoted I db).rows I = (c.denoted I db).outputs I := by
    rw [Select.rows, if_neg]
    simpa [denoted, Select.map] using hd
  exact same ▸ hc.rows

/-- The expressions of a select at a place. -/
theorem values_denoted (p : Place V) : (c.denoted I db).exprs.map (·.value p) =
    c.select.exprs.map fun t ↦ (t.meaning I db).value p := by
  rw [exprs_denoted, List.map_map]
  rfl

theorem Yields.isLocal (hc : c.Yields I db rows labels) (hg : c.select.isGrouped = false) :
    ∀ t ∈ c.select.exprs, (t.meaning I db).IsLocal labels := by
  intro t ht
  refine (hc.flat hg).exprs _ ?_
  rw [exprs_denoted]
  exact List.mem_map_of_mem ht

theorem Yields.isStable (hc : c.Yields I db rows labels) :
    ∀ t ∈ c.select.exprs, (t.meaning I db).IsStable := by
  intro t ht
  refine hc.stable _ ?_
  rw [exprs_denoted]
  exact List.mem_map_of_mem ht

/-- A filter keeps the rows that were kept and that meet the condition. -/
theorem filter_meaning {e : Scalar} (flat : (c.denoted I db).IsFlat labels)
    (h : c.filter e d = .ok (c', d')) :
    ∃ t, c' = ⟨{ c.select with filter := some t }, c.header⟩ ∧ (t.meaning I db).IsLocal labels ∧
      ∀ row, I.holds ((t.meaning I db).value (.ofRow row)) =
        (keeps I (c.denoted I db).filter row &&
          I.holds (e.value I ((c.denoted I db).rowValues row))) := by
  obtain ⟨condition, d₁, filter, hs, hf, rfl⟩ := filter_ok h
  have computes : condition.Computes I db c.select.exprs (Scalar.value I · e) := computes_scalar hs
  have local_exprs : ∀ t ∈ c.select.exprs, (t.meaning I db).IsLocal labels := by
    intro t ht
    apply flat.exprs
    rw [exprs_denoted]
    exact List.mem_map_of_mem ht
  have local_filter : ∀ t ∈ c.select.filter, (t.meaning I db).IsLocal labels :=
    fun t ht ↦ flat.filter _ (Option.mem_map_of_mem _ ht)
  refine ⟨filter, rfl, isLocal_conjunction local_filter (computes.isLocal local_exprs) hf,
    fun row ↦ ?_⟩
  rw [Select.rowValues, values_denoted, ← computes.value]
  exact conjunction_keeps hf row

theorem Yields.filter {e : Scalar} (hc : c.Yields I db rows labels)
    (merges : mustWrap c.select .filter = false) (h : c.filter e d = .ok (c', d')) :
    c'.Yields I db (rows.filter fun row ↦ I.holds (e.value I row)) labels := by
  simp only [mustWrap, Bool.or_eq_false_iff] at merges
  obtain ⟨⟨-, plain⟩, ungrouped⟩ := merges
  have flat := hc.flat ungrouped
  obtain ⟨t, rfl, ht, kept⟩ := filter_meaning flat h
  obtain ⟨flat', outputs⟩ := flat.outputs_filter (columns_denoted.2 hc.columns) ht
    (fun row ↦ I.holds (e.value I row)) kept
  refine ⟨hc.unpaged, hc.having, hc.columns, hc.stable, fun _ ↦ flat', ?_⟩
  change (if c.select.distinct then _ else _ : List (List V)).Perm _
  rw [plain]
  exact (List.Perm.of_eq outputs).trans ((hc.outputs plain).filter _)

/-- Output columns that are computed from those of a select that is not distinct put out what
they compute. -/
theorem Yields.withColumns {columns : List (OutputColumn Tree)} {header : Header}
    {f : List V → List V} (hc : c.Yields I db rows labels) (hd : c.select.distinct = false)
    (hne : columns ≠ [])
    (computed : ∀ k ∈ columns, ∃ g, k.expr.Computes I db c.select.exprs g)
    (hf : ∀ p, columns.map (fun k ↦ (k.expr.meaning I db).value p) =
      f (c.select.exprs.map fun t ↦ (t.meaning I db).value p)) :
    Yields I db (rows.map f) labels ⟨{ c.select with columns }, header⟩ := by
  let c' : Compiled := ⟨{ c.select with columns }, header⟩
  have exprs (q : Meaning V → Prop) (h : ∀ k ∈ columns, q (k.expr.meaning I db)) :
      ∀ m ∈ (c'.denoted I db).exprs, q m := by
    rw [exprs_denoted]
    intro m hm
    obtain ⟨t, ht, rfl⟩ := List.mem_map.1 hm
    obtain ⟨k, hk, rfl⟩ := List.mem_map.1 ht
    exact h k hk
  have stable : ∀ m ∈ (c'.denoted I db).exprs, m.IsStable := by
    refine exprs _ fun k hk ↦ ?_
    obtain ⟨g, hg⟩ := computed k hk
    exact hg.isStable hc.isStable
  have flat (hg : c.select.isGrouped = false) : (c'.denoted I db).IsFlat labels := by
    refine ⟨(hc.flat hg).grouped, exprs _ fun k hk ↦ ?_, (hc.flat hg).orderBy,
      (hc.flat hg).filter, (hc.flat hg).source⟩
    obtain ⟨g, hk⟩ := computed k hk
    exact hk.isLocal (hc.isLocal hg)
  have groups : (c'.denoted I db).hasGroups = (c.denoted I db).hasGroups := by
    rw [hc.hasGroups]
    rcases hg : c.select.isGrouped with _ | _
    · exact (flat hg).hasGroups
    · exact Select.hasGroups_of_isGrouped ((isGrouped_denoted (c := c')).trans hg)
  have outputs : (c'.denoted I db).outputs I = ((c.denoted I db).outputs I).map f := by
    refine Select.outputs_of_exprs rfl rfl rfl groups (columns_denoted.2 hc.columns)
      ((columns_denoted (c := c')).2 hne) hc.stable stable fun p ↦ ?_
    rw [values_denoted, values_denoted, ← hf, Select.exprs, List.map_map]
    rfl
  refine ⟨hc.unpaged, hc.having, hne, stable, flat, ?_⟩
  change (if c.select.distinct then _ else _ : List (List V)).Perm _
  rw [hd]
  exact (List.Perm.of_eq outputs).trans ((hc.outputs hd).map f)

/-- The column at a position computes the value at it. -/
theorem computes_at {columns : List Tree} {i : Nat} {t : Tree} (h : columns[i]? = some t) :
    t.Computes I db columns (I.at · i) := computes_columnAt (columnAt_ok.2 h)

/-- A projection computes the values at its positions. -/
theorem computes_project (I : Interpretation V) (db : Database V) {columns : List Nat}
    (h : c.project columns = .ok c') :
    ∃ chosen, c' = ⟨{ c.select with columns := chosen }, c'.header⟩ ∧
      chosen.length = columns.length ∧
      (∀ k ∈ chosen, ∃ g, k.expr.Computes I db c.select.exprs g) ∧
      ∀ p, chosen.map (fun k ↦ (k.expr.meaning I db).value p) =
        columns.map (I.at (c.select.exprs.map fun t ↦ (t.meaning I db).value p)) := by
  obtain ⟨chosen, hp, rfl⟩ := project_ok h
  have computes : List.Forall₂ (fun i k ↦ k.expr.Computes I db c.select.exprs (I.at · i))
      columns (chosen.map (·.1)) := by
    rw [List.forall₂_map_right_iff]
    refine hp.imp fun i p hi ↦ computes_at ?_
    rw [Select.exprs, List.getElem?_map, hi.1, Option.map_some]
  refine ⟨chosen.map (·.1), rfl, computes.length_eq.symm, fun k hk ↦ ?_, fun p ↦ ?_⟩
  · obtain ⟨i, -, hi⟩ := exists_of_mem_forall₂ computes hk
    exact ⟨_, hi⟩
  · have values : List.Forall₂ (· = ·) ((chosen.map (·.1)).map fun k ↦ (k.expr.meaning I db).value p)
        (columns.map (I.at (c.select.exprs.map fun t ↦ (t.meaning I db).value p))) := by
      rw [List.forall₂_map_left_iff, List.forall₂_map_right_iff]
      exact computes.flip.imp fun k i hi ↦ hi.value p
    rwa [List.forall₂_eq_eq_eq] at values

/-- A select with one more column computes what it computed before, and the column. -/
theorem computes_appendColumn {t : Tree} {info : HeaderColumn} {f : List V → V}
    (ht : t.Computes I db c.select.exprs f) :
    (∀ k ∈ (c.appendColumn t info).select.columns, ∃ g, k.expr.Computes I db c.select.exprs g) ∧
      ∀ p, (c.appendColumn t info).select.columns.map (fun k ↦ (k.expr.meaning I db).value p) =
        (c.select.exprs.map fun t ↦ (t.meaning I db).value p) ++
          [f (c.select.exprs.map fun t ↦ (t.meaning I db).value p)] := by
  refine ⟨fun k hk ↦ ?_, fun p ↦ ?_⟩
  · rcases List.mem_append.1 hk with hk | hk
    · obtain ⟨i, hi⟩ := List.mem_iff_getElem?.1 hk
      refine ⟨_, computes_at (i := i) ?_⟩
      rw [Select.exprs, List.getElem?_map, hi, Option.map_some]
    · rw [List.mem_singleton.1 hk, expr_outputColumn]
      exact ⟨f, ht⟩
  · rw [appendColumn, List.map_append, List.map_singleton, expr_outputColumn, ht.value,
      Select.exprs, List.map_map]
    rfl

theorem Yields.project {columns : List Nat} (hc : c.Yields I db rows labels)
    (merges : mustWrap c.select .project = false) (hne : columns ≠ [])
    (h : c.project columns = .ok c') :
    c'.Yields I db (rows.map fun row ↦ columns.map (I.at row)) labels := by
  obtain ⟨chosen, hc', length, computes, values⟩ := computes_project I db h
  rw [hc']
  refine hc.withColumns merges ?_ computes values
  rintro rfl
  exact hne (List.length_eq_zero_iff.1 length.symm)

theorem Yields.appendColumn {t : Tree} {info : HeaderColumn} {f : List V → V}
    (hc : c.Yields I db rows labels) (hd : c.select.distinct = false)
    (ht : t.Computes I db c.select.exprs f) :
    (c.appendColumn t info).Yields I db (rows.map fun row ↦ row ++ [f row]) labels :=
  hc.withColumns hd (by simp) (computes_appendColumn ht).1 (computes_appendColumn ht).2

theorem Yields.extend {columns : List Calculation} (hc : c.Yields I db rows labels)
    (hd : c.select.distinct = false) (h : c.extend columns d = .ok (c', d')) :
    c'.Yields I db (rows.map (Calculation.extendRow I · columns)) labels := by
  induction columns generalizing c d rows with
  | nil =>
    obtain ⟨rfl, -⟩ := pure_ok.1 h
    simpa [Calculation.extendRow] using hc
  | cons k columns ih =>
    simp only [Compiled.extend, bind_ok] at h
    obtain ⟨expr, d₁, he, h⟩ := h
    have yields := ih (hc.appendColumn hd (computes_scalar he)) hd h
    rw [List.map_map] at yields
    exact yields

/-- Another ordering by the expressions of the select leaves its rows as they are. -/
theorem Yields.withOrderBy {orderBy : List (SortKey Tree)} {header : Header}
    (hc : c.Yields I db rows labels)
    (order : ∀ k ∈ orderBy, k.expr ∈ c.select.exprs ∨ k ∈ c.select.orderBy) :
    Yields I db rows labels ⟨{ c.select with orderBy }, header⟩ := by
  let c' : Compiled := ⟨{ c.select with orderBy }, header⟩
  have flat (hg : c.select.isGrouped = false) : (c'.denoted I db).IsFlat labels := by
    have old := hc.flat hg
    refine ⟨old.grouped, old.exprs, fun k hk ↦ ?_, old.filter, old.source⟩
    obtain ⟨k', hk', rfl⟩ := List.mem_map.1 hk
    rcases order k' hk' with h | h
    · exact hc.isLocal hg _ h
    · exact old.orderBy _ (List.mem_map_of_mem h)
  have groups : (c'.denoted I db).hasGroups = (c.denoted I db).hasGroups := by
    rw [hc.hasGroups]
    rcases hg : c.select.isGrouped with _ | _
    · exact (flat hg).hasGroups
    · exact Select.hasGroups_of_isGrouped ((isGrouped_denoted (c := c')).trans hg)
  refine ⟨hc.unpaged, hc.having, hc.columns, hc.stable, flat, ?_⟩
  have same : (c'.denoted I db).rows I = (c.denoted I db).rows I :=
    Select.rows_congr rfl rfl rfl rfl groups rfl
  exact same ▸ hc.rows

theorem Yields.sort {order : List SortItem} (hc : c.Yields I db rows labels)
    (h : c.sort order = .ok c') : c'.Yields I db (Relation.sorted I order rows) labels := by
  obtain ⟨orderBy, hk, rfl⟩ := sort_ok h
  have yields : Yields I db rows labels ⟨{ c.select with orderBy }, c.header.withOrder order⟩ := by
    refine hc.withOrderBy fun k hmem ↦ ?_
    obtain ⟨item, -, t, ht, rfl⟩ := exists_of_mem_forall₂ hk hmem
    exact .inl (List.mem_of_getElem? ht)
  exact { yields with rows := yields.rows.trans (List.mergeSort_perm _ _).symm }

theorem Yields.distinct (hc : c.Yields I db rows labels) :
    c.distinct.Yields I db rows.dedup labels := by
  let orderBy := c.select.orderBy.filter fun k ↦ c.select.exprs.any (·.id == k.expr.id)
  have yields : Yields I db rows labels ⟨{ c.select with orderBy }, c.header⟩ :=
    hc.withOrderBy fun k hk ↦ .inr (List.mem_filter.1 hk).1
  refine ⟨yields.unpaged, yields.having, yields.columns, yields.stable, fun hg ↦ ?_, ?_⟩
  · have flat := yields.flat hg
    exact ⟨flat.grouped, flat.exprs, flat.orderBy, flat.filter, flat.source⟩
  · let s := denoted I db ⟨{ c.select with orderBy }, c.header⟩
    have outputs : (c.distinct.denoted I db).outputs I = s.outputs I :=
      Select.outputs_congr rfl rfl rfl rfl rfl
    have twice : (s.rows I).dedup = (s.outputs I).dedup := by
      rw [Select.rows]
      split
      · exact List.dedup_idem
      · rfl
    have distinct := yields.rows.dedup
    rw [twice] at distinct
    change ((c.distinct.denoted I db).outputs I).dedup.Perm _
    rw [outputs]
    exact distinct

/-! ### Aggregations -/

/-- An aggregate is cast by the types of the columns alone. -/
theorem aggregateCast_eq (a : Aggregation) (header : Header) :
    aggregateCast a header = a.cast? (header.columns.map (·.type)) := by
  unfold Aggregation.cast? aggregateCast
  cases a.kind with
  | avg =>
    cases a.column with
    | none => rfl
    | some i =>
      simp only [Option.bind_some, List.getElem?_map]
      cases header.columns[i]? <;> rfl
  | _ => rfl

/-- A call of an aggregate function has the value of the function in its group: of its column,
if it has one, and of the rows themselves otherwise. -/
private theorem value_call {a : Aggregation} {exprs : List Tree} {operand : Option Tree} {call : Tree}
    (found : a.column = none ∧ operand = none ∨
      ∃ i u, a.column = some i ∧ exprs[i]? = some u ∧ operand = some u)
    (h : node (.aggregate a.kind false operand) d = .ok (call, d')) (p : Place V) :
    (call.meaning I db).value p = match a.column with
      | some i => I.aggregate a.kind ((p.group.map fun row ↦
          exprs.map fun u ↦ (u.meaning I db).value (.ofRow row)).map (I.at · i))
      | none => I.rows a.kind p.group.length := by
  rw [meaning_node h]
  rcases found with ⟨hc, rfl⟩ | ⟨i, u, hc, hi, rfl⟩
  · rw [hc]
    rfl
  · rw [hc]
    simp only [List.map_map]
    refine congrArg (fun l : List V ↦ I.aggregate a.kind l) (List.map_congr_left fun row _ ↦ ?_)
    exact (computes_at hi).value (.ofRow row)

/-- An aggregate function has the value of the aggregate in the rows of the group. -/
theorem value_aggregateExpr {a : Aggregation} {header : Header} {exprs : List Tree} {t : Tree}
    (h : aggregateExpr a header exprs d = .ok (t, d')) (p : Place V) :
    (t.meaning I db).value p = a.value I (header.columns.map (·.type))
      (p.group.map fun row ↦ exprs.map fun u ↦ (u.meaning I db).value (.ofRow row)) := by
  obtain ⟨operand, call, d₁, found, -, hcall, cast⟩ := aggregateExpr_ok h
  simp only [Aggregation.value, ← aggregateCast_eq, List.length_map]
  rcases cast with ⟨type, hcast, ht⟩ | ⟨hcast, rfl, -⟩
  · rw [hcast, meaning_node ht]
    exact congrArg (I.cast type) (value_call found hcall p)
  · rw [hcast]
    exact value_call found hcall p

/-- Values of the aggregates that a select puts out. -/
theorem values_aggregates {aggregates : List Aggregation} {calls : List Tree}
    (h : List.Forall₂
      (fun a t ↦ ∃ d₁ d₂, aggregateExpr a c.header c.select.exprs d₁ = .ok (t, d₂)) aggregates calls)
    (p : Place V) : calls.map (fun t ↦ (t.meaning I db).value p) =
      aggregates.map fun a ↦ a.value I (c.header.columns.map (·.type)) (p.group.map fun row ↦
        c.select.exprs.map fun u ↦ (u.meaning I db).value (.ofRow row)) := by
  induction h with
  | nil => rfl
  | cons he _ ih =>
    obtain ⟨_, _, he⟩ := he
    rw [List.map_cons, List.map_cons, ih, value_aggregateExpr he]

theorem Yields.aggregate {groupBy : List Nat} {aggregates : List Aggregation}
    (hc : c.Yields I db rows labels) (merges : mustWrap c.select .aggregate = false)
    (hg : groupBy ≠ []) (h : c.aggregate groupBy aggregates d = .ok (c', d')) :
    c'.Yields I db (Relation.aggregatedRows I (c.header.columns.map (·.type)) groupBy aggregates
      rows) labels := by
  simp only [mustWrap, Bool.or_eq_false_iff] at merges
  obtain ⟨⟨-, plain⟩, ungrouped⟩ := merges
  obtain ⟨groups, all, hgroups, hall, rfl⟩ := aggregate_ok h
  obtain ⟨gs, hgs, positions⟩ := exprs_groupColumns hgroups
  obtain ⟨as, has, computed⟩ := exprs_aggregateColumns hall
  rw [show (⟨{}, {}⟩ : Compiled).select.exprs = [] from rfl, List.nil_append] at hgs
  have flat := hc.flat ungrouped
  let c' : Compiled := ⟨{ c.select with
      columns := all.select.columns
      groupBy := groups.select.exprs
      orderBy := [] },
    all.header.withOrder ((List.range groupBy.length).map (⟨·, true⟩))⟩
  have exprs : (c'.denoted I db).exprs = gs.map (Tree.meaning I db) ++ as.map (Tree.meaning I db) := by
    rw [exprs_denoted, ← List.map_append, ← hgs, ← has]
    rfl
  have groups_ne : gs ≠ [] := by
    rintro rfl
    exact hg (List.forall₂_nil_right_iff.1 positions)
  have columns : c'.select.columns ≠ [] := by
    intro he
    have none : all.select.exprs = [] := by rw [Select.exprs, he]; rfl
    rw [has, hgs] at none
    exact groups_ne (List.append_eq_nil_iff.1 none).1
  have grouped : c'.select.isGrouped = true := by
    have : groups.select.exprs.isEmpty = false := by
      rw [hgs]
      exact List.isEmpty_eq_false_iff.2 groups_ne
    simp [c', Select.isGrouped, this]
  have computes : List.Forall₂ (fun i t ↦ t.Computes I db c.select.exprs (I.at · i)) groupBy gs :=
    positions.imp fun i t hi ↦ computes_at hi
  have keys_local : ∀ m ∈ gs.map (Tree.meaning I db), m.IsLocal labels := by
    intro m hm
    obtain ⟨t, ht, rfl⟩ := List.mem_map.1 hm
    obtain ⟨i, -, hi⟩ := exists_of_mem_forall₂ computes ht
    exact hi.isLocal (hc.isLocal ungrouped)
  have keys (p : Place V) : (gs.map (Tree.meaning I db)).map (·.value p) =
      groupBy.map (I.at ((c.denoted I db).exprs.map (·.value p))) := by
    have same : List.Forall₂ (· = ·) (gs.map fun t ↦ (t.meaning I db).value p)
        (groupBy.map (I.at (c.select.exprs.map fun t ↦ (t.meaning I db).value p))) := by
      rw [List.forall₂_map_left_iff, List.forall₂_map_right_iff]
      exact computes.flip.imp fun t i hi ↦ hi.value p
    rw [List.forall₂_eq_eq_eq] at same
    rw [values_denoted, ← same, List.map_map]
    rfl
  have aggregated (p : Place V) : (as.map (Tree.meaning I db)).map (·.value p) =
      aggregates.map (·.value I (c.header.columns.map (·.type))
        (p.group.map (c.denoted I db).rowValues)) := by
    rw [List.map_map]
    refine (values_aggregates computed p).trans
      (List.map_congr_left fun a _ ↦ congrArg (a.value I _) ?_)
    exact List.map_congr_left fun row _ ↦ (values_denoted (.ofRow row)).symm
  obtain ⟨stable, outputs⟩ : (∀ m ∈ (c'.denoted I db).exprs, m.IsStable) ∧
      (c'.denoted I db).outputs I = Relation.aggregatedRows I (c.header.columns.map (·.type))
        groupBy aggregates ((c.denoted I db).outputs I) :=
    flat.outputs_aggregate (columns_denoted.2 hc.columns) hg (columns_denoted.2 columns) exprs rfl
      (congrArg (List.map (Tree.meaning I db)) hgs) (congrArg (Option.map _) hc.having)
      keys_local keys aggregated
  refine ⟨hc.unpaged, hc.having, columns, stable, fun h ↦ ?_, ?_⟩
  · rw [grouped] at h
    cases h
  · change (if c.select.distinct then _ else _ : List (List V)).Perm _
    rw [plain]
    exact (List.Perm.of_eq outputs).trans (Relation.aggregatedRows_perm (hc.outputs plain) _ _ _)

/-! ### Joins -/

/-- The condition of a join keeps the rows in which the columns of each pair are equal. -/
theorem joinCondition_meaning {left right : List Tree} {condition result : Option Tree}
    {pairs : List (Nat × Nat)} {labels : List String}
    (hl : ∀ t ∈ left, (t.meaning I db).IsLocal labels)
    (hr : ∀ t ∈ right, (t.meaning I db).IsLocal labels)
    (hc : ∀ t ∈ condition, (t.meaning I db).IsLocal labels)
    (h : joinCondition left right condition pairs d = .ok (result, d')) :
    (∀ t ∈ result, (t.meaning I db).IsLocal labels) ∧
      ∀ row, keeps I (result.map (Tree.meaning I db)) row =
        (keeps I (condition.map (Tree.meaning I db)) row &&
          Relation.pairsHold I pairs (left.map fun t ↦ (t.meaning I db).value (.ofRow row))
            (right.map fun t ↦ (t.meaning I db).value (.ofRow row))) := by
  induction pairs generalizing condition d with
  | nil =>
    obtain ⟨rfl, -⟩ := pure_ok.1 h
    exact ⟨hc, fun row ↦ (Bool.and_true _).symm⟩
  | cons p pairs ih =>
    obtain ⟨a, b, equality, d₁, joined, d₂, ha, hb, he, hj, h⟩ := joinCondition_cons_ok h
    have equality_local := isLocal_binary_node (hl a (List.mem_of_getElem? ha))
      (hr b (List.mem_of_getElem? hb)) he
    have joined_local := isLocal_conjunction hc equality_local hj
    obtain ⟨result_local, kept⟩ := ih (by rintro _ ⟨⟩; exact joined_local) h
    refine ⟨result_local, fun row ↦ ?_⟩
    rw [kept, Option.map_some, conjunction_keeps hj, Bool.and_assoc]
    have equal : keeps I (some (equality.meaning I db)) row =
        I.holds (I.binary .eq
          (I.at (left.map fun t ↦ (t.meaning I db).value (.ofRow row)) p.1)
          (I.at (right.map fun t ↦ (t.meaning I db).value (.ofRow row)) p.2)) := by
      rw [← (computes_at ha).value, ← (computes_at hb).value]
      exact congrArg I.holds (value_binary_node he _)
    rw [equal]
    rfl

/-- The filter of an inner join keeps the rows that the filters of both sides keep. -/
theorem joinParts_meaning {condition left right on filter : Option Tree} {kind : JoinKind}
    {labels : List String} (hl : ∀ t ∈ left, (t.meaning I db).IsLocal labels)
    (hr : ∀ t ∈ right, (t.meaning I db).IsLocal labels)
    (h : joinParts .inner condition left right d = .ok ((kind, on, filter), d')) :
    kind ≠ .leftOuter ∧ on = condition ∧ (∀ t ∈ filter, (t.meaning I db).IsLocal labels) ∧
      ∀ row, keeps I (filter.map (Tree.meaning I db)) row =
        (keeps I (left.map (Tree.meaning I db)) row &&
          keeps I (right.map (Tree.meaning I db)) row) := by
  obtain ⟨rfl, rfl, both⟩ := joinParts_inner_ok h
  refine ⟨by split <;> nofun, rfl, ?_⟩
  rcases both with ⟨x, y, t, rfl, rfl, rfl, ht⟩ | ⟨none, rfl, -⟩
  · refine ⟨?_, fun row ↦ and_node_keeps ht row⟩
    rintro _ ⟨⟩
    exact isLocal_binary_node (hl x rfl) (hr y rfl) ht
  · rcases none with rfl | rfl
    · exact ⟨hr, fun row ↦ (Bool.true_and _).symm⟩
    · rw [Option.or_none]
      exact ⟨hl, fun row ↦ (Bool.and_true _).symm⟩

/-- An outer join is on its condition and the filter of the right side, and filters by that of
the left side. -/
theorem joinParts_leftOuter_meaning (db : Database V)
    {condition left right on filter : Option Tree} {kind : JoinKind}
    (one : I.holds (I.binary .eq (I.literal (.integer 1)) (I.literal (.integer 1))))
    (h : joinParts .leftOuter condition left right d = .ok ((kind, on, filter), d')) :
    kind = .leftOuter ∧ filter = left ∧
      ∀ row, keeps I (on.map (Tree.meaning I db)) row =
        (keeps I (condition.map (Tree.meaning I db)) row &&
          keeps I (right.map (Tree.meaning I db)) row) := by
  obtain ⟨rfl, rfl, c, d₁, hcondition, t, rfl, hright⟩ := joinParts_leftOuter_ok h
  refine ⟨rfl, rfl, fun row ↦ ?_⟩
  have matched : keeps I (some (c.meaning I db)) row =
      keeps I (condition.map (Tree.meaning I db)) row := by
    rcases hcondition with ⟨rfl, -⟩ | ⟨rfl, a, d₂, b, d₃, ha, hb, hc⟩
    · rfl
    · have value {t : Tree} {d d' : Draft} (ht : integer 1 d = .ok (t, d')) (p : Place V) :
          (t.meaning I db).value p = I.literal (.integer 1) := by
        rw [meaning_node ht]
        rfl
      rw [keeps, Option.all_some, value_binary_node hc, value ha, value hb, one]
      rfl
  rcases hright with ⟨rfl, rfl, -⟩ | ⟨f, rfl, ht⟩
  · rw [Option.map_some, matched]
    exact (Bool.and_true _).symm
  · rw [Option.map_some, and_node_keeps ht, matched]
    rfl

/-- Select of the columns of two selects, read from one row source. -/
def sideBySide (left right : Compiled) (source : Tree) (filter : Option Tree) (header : Header) :
    Compiled :=
  ⟨{ columns := (joinColumns left right).select.columns, source := some source, filter }, header⟩

section Joins

variable {left right : Compiled} {labels' : List String} {leftSource rightSource source : Tree}
  {condition on filter : Option Tree} {kind : JoinKind} {type : JoinType} {pairs : List (Nat × Nat)}
  {width : Nat} {header : Header} {d₁ d₂ d₃ : Draft}

theorem exprs_sideBySide (named : right.Named) :
    (sideBySide left right source filter header).select.exprs =
      left.select.exprs ++ right.select.exprs := by
  have same := congrArg List.length named.names
  rw [List.length_map, List.length_map, Header.names, List.length_map] at same
  exact exprs_joinColumns same.le

/-- The join of two flat selects is flat and keeps the rows of the join, where an outer join asks
that the columns of its right side read NULL without a row. -/
theorem kept_sideBySide (header : Header) (width : Nat) (flatL : (left.denoted I db).IsFlat labels)
    (flatR : (right.denoted I db).IsFlat labels') (named : right.Named)
    (disjoint : labels.Disjoint labels') (hls : left.select.source = some leftSource)
    (hrs : right.select.source = some rightSource)
    (hcond : joinCondition left.select.exprs right.select.exprs none pairs d = .ok (condition, d₁))
    (hparts : joinParts type condition left.select.filter right.select.filter d₁ =
      .ok ((kind, on, filter), d₂))
    (hs : node (.join kind leftSource rightSource on) d₂ = .ok (source, d₃))
    (outer : type = .leftOuter →
      I.holds (I.binary .eq (I.literal (.integer 1)) (I.literal (.integer 1))) ∧
        (right.denoted I db).rowValues [] = List.replicate width I.null) :
    ((sideBySide left right source filter header).denoted I db).IsFlat (labels ++ labels') ∧
      (((sideBySide left right source filter header).denoted I db).kept I).map
          ((sideBySide left right source filter header).denoted I db).rowValues =
        Relation.joinedRows I type pairs width
          (((left.denoted I db).kept I).map (left.denoted I db).rowValues)
          (((right.denoted I db).kept I).map (right.denoted I db).rowValues) := by
  let s := (sideBySide left right source filter header).denoted I db
  have onLeft {t : Tree} (h : (t.meaning I db).IsLocal labels) :
      (t.meaning I db).IsLocal (labels ++ labels') := h.mono (List.subset_append_left _ _)
  have onRight {t : Tree} (h : (t.meaning I db).IsLocal labels') :
      (t.meaning I db).IsLocal (labels ++ labels') := h.mono (List.subset_append_right _ _)
  have exprsL : ∀ t ∈ left.select.exprs, (t.meaning I db).IsLocal (labels ++ labels') :=
    fun t ht ↦ onLeft (flatL.exprs _ (by rw [exprs_denoted]; exact List.mem_map_of_mem ht))
  have exprsR : ∀ t ∈ right.select.exprs, (t.meaning I db).IsLocal (labels ++ labels') :=
    fun t ht ↦ onRight (flatR.exprs _ (by rw [exprs_denoted]; exact List.mem_map_of_mem ht))
  have filterL : ∀ t ∈ left.select.filter, (t.meaning I db).IsLocal (labels ++ labels') :=
    fun t ht ↦ onLeft (flatL.filter _ (Option.mem_map_of_mem _ ht))
  have filterR : ∀ t ∈ right.select.filter, (t.meaning I db).IsLocal (labels ++ labels') :=
    fun t ht ↦ onRight (flatR.filter _ (Option.mem_map_of_mem _ ht))
  have exprs : s.exprs = (left.denoted I db).exprs ++ (right.denoted I db).exprs := by
    rw [exprs_denoted, exprs_sideBySide named, List.map_append, exprs_denoted, exprs_denoted]
  have sourceL : (left.denoted I db).source = some (leftSource.meaning I db) := by
    rw [denoted, Select.map, hls]
    rfl
  have sourceR : (right.denoted I db).source = some (rightSource.meaning I db) := by
    rw [denoted, Select.map, hrs]
    rfl
  have source_eq : s.source = some (ofSource I (Meaning.joined I kind
      (leftSource.meaning I db).scopes (rightSource.meaning I db).scopes
      (on.map (Tree.meaning I db)))) := congrArg some (meaning_node hs)
  obtain ⟨-, matched⟩ := joinCondition_meaning exprsL exprsR (by simp) hcond
  have matches_on (row : Scope V) : keeps I (condition.map (Tree.meaning I db)) row =
      Relation.pairsHold I pairs ((left.denoted I db).rowValues row)
        ((right.denoted I db).rowValues row) := by
    rw [matched, Select.rowValues, Select.rowValues, values_denoted, values_denoted]
    exact Bool.true_and _
  have flat (local_filter : ∀ t ∈ filter, (t.meaning I db).IsLocal (labels ++ labels')) :
      s.IsFlat (labels ++ labels') := by
    refine flatL.join flatR sourceL sourceR rfl rfl exprs (fun m hm ↦ ?_) source_eq
    obtain ⟨t, ht, rfl⟩ := Option.mem_map.1 hm
    exact local_filter t ht
  cases type with
  | inner =>
    obtain ⟨hkind, rfl, local_filter, kept⟩ := joinParts_meaning filterL filterR hparts
    exact ⟨flat local_filter, flatL.kept_innerJoin flatR disjoint sourceL sourceR hkind exprs
      source_eq kept matches_on⟩
  | leftOuter =>
    obtain ⟨one, absent⟩ := outer rfl
    obtain ⟨rfl, rfl, kept⟩ := joinParts_leftOuter_meaning db one hparts
    refine ⟨flat filterL, flatL.kept_leftJoin flatR disjoint sourceL sourceR exprs source_eq
      (fun _ ↦ rfl) (fun row ↦ ?_) absent⟩
    rw [kept, matches_on]
    rfl

/-- An inner join of two selects that are read as they are yields the pairs of their rows that
match. -/
theorem Yields.joined {rows' : List (List V)} (hl : left.Yields I db rows labels)
    (hr : right.Yields I db rows' labels') (mergesL : mustWrap left.select .join = false)
    (mergesR : mustWrap right.select .join = false) (named : right.Named)
    (disjoint : labels.Disjoint labels') (hls : left.select.source = some leftSource)
    (hrs : right.select.source = some rightSource)
    (hcond : joinCondition left.select.exprs right.select.exprs none pairs d = .ok (condition, d₁))
    (hparts : joinParts .inner condition left.select.filter right.select.filter d₁ =
      .ok ((kind, on, filter), d₂))
    (hs : node (.join kind leftSource rightSource on) d₂ = .ok (source, d₃)) :
    (sideBySide left right source filter header).Yields I db
      (Relation.joinedRows I .inner pairs width rows rows') (labels ++ labels') := by
  simp only [mustWrap, Bool.or_eq_false_iff] at mergesL mergesR
  obtain ⟨⟨⟨-, plainL⟩, ungroupedL⟩, -⟩ := mergesL
  obtain ⟨⟨⟨-, plainR⟩, ungroupedR⟩, -⟩ := mergesR
  have flatL := hl.flat ungroupedL
  have flatR := hr.flat ungroupedR
  obtain ⟨flat, kept⟩ := kept_sideBySide header width flatL flatR named disjoint hls hrs
    hcond hparts hs nofun
  have columns : (sideBySide left right source filter header).select.columns ≠ [] := by
    intro he
    have none : (sideBySide left right source filter header).select.exprs = [] := by
      rw [Select.exprs, he]
      rfl
    rw [exprs_sideBySide named] at none
    exact hl.columns (List.map_eq_nil_iff.1 (List.append_eq_nil_iff.1 none).1)
  have outputs := flat.outputs (I := I) (columns_denoted.2 columns)
  rw [kept, ← flatL.outputs (columns_denoted.2 hl.columns),
    ← flatR.outputs (columns_denoted.2 hr.columns)] at outputs
  refine ⟨rfl, rfl, columns, fun m hm ↦ (flat.exprs m hm).isStable, fun _ ↦ flat, ?_⟩
  refine (List.Perm.of_eq outputs).trans ?_
  exact Relation.joinedRows_perm (hl.outputs plainL) (hr.outputs plainR) .inner pairs width

end Joins

end Compiled

end SqlWright
