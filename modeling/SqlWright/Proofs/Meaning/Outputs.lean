import SqlWright.Proofs.Meaning.Expression

/-!
# Outputs of a select

The rows of values that a select puts out, before they are ordered. A select without groups
computes them row by row, one with groups group by group; that the expressions are stable
lets a select list be exchanged for a function of another.
-/

namespace SqlWright

variable {V : Type} {I : Interpretation V} {labels : List String}

open Meaning

namespace Select

variable {s s' : Select (Meaning V)}

/-- Values of the select list for a single row. -/
def rowValues (s : Select (Meaning V)) (row : Scope V) : List V :=
  s.exprs.map (·.value (.ofRow row))

theorem values_record (hc : s.columns ≠ []) (p : Place V) :
    (s.record p).values = s.exprs.map (·.value p) := by
  rw [record, if_neg (by simpa using hc), Record.values, exprs, List.map_map, List.map_map]
  rfl

theorem hasGroups_of_isGrouped (h : s.isGrouped = true) : s.hasGroups = true := by
  rw [hasGroups, h]
  rfl

/-- A select without groups, whose expressions read the aliases of its row source. -/
structure IsFlat (labels : List String) (s : Select (Meaning V)) : Prop where
  grouped : s.isGrouped = false
  exprs : ∀ m ∈ s.exprs, m.IsLocal labels
  orderBy : ∀ k ∈ s.orderBy, k.expr.IsLocal labels
  filter : ∀ m ∈ s.filter, m.IsLocal labels
  source : ∃ m, s.source = some m ∧ ∀ row ∈ m.scopes, row.map (·.1) ⊆ labels

theorem IsFlat.hasGroups (h : s.IsFlat labels) : s.hasGroups = false := by
  have exprs : s.exprs.any (·.aggregates) = false := by
    simpa using fun m hm ↦ (h.exprs m hm).plain
  have orderBy : s.orderBy.any (·.expr.aggregates) = false := by
    simpa using fun k hk ↦ (h.orderBy k hk).plain
  rw [Select.hasGroups, h.grouped, exprs, orderBy]
  rfl

variable [DecidableEq V]

/-- Values of the select list at the places of the select. -/
def outputs (I : Interpretation V) (s : Select (Meaning V)) : List (List V) :=
  (s.places I).map fun p ↦ (s.record p).values

/-- Rows that the select puts out in no order. -/
def rows (I : Interpretation V) (s : Select (Meaning V)) : List (List V) :=
  if s.distinct then (s.outputs I).dedup else s.outputs I

/-- The records of a select are its rows in some order. -/
theorem values_ordered_perm : ((s.ordered I).map Record.values).Perm (s.rows I) := by
  have sorted := ((s.entries I).mergeSort_perm fun a b ↦ I.orderLe a.2 b.2).map
    fun e ↦ e.1.values
  rw [ordered, List.map_map]
  refine sorted.trans (.of_eq ?_)
  rw [entries, rows]
  split
  · rw [List.dedup, outputs]
    refine (List.pwFilter_map (R := (· ≠ ·)) (fun e : Record V × _ ↦ e.1.values) _).symm.trans ?_
    rw [List.map_map]
    rfl
  · rw [List.map_map]
    rfl

/-- Every record is one of the select list, under the names of the select list. -/
theorem names_of_mem_records {record : Record V} (hc : s.columns ≠ [])
    (h : record ∈ s.records I) :
    record.map (·.1) = s.columns.map fun c ↦ (c.label <|> c.expr.name?).getD "" := by
  have ordered : record ∈ s.ordered I := by
    simp only [records] at h
    split at h
    · exact List.mem_of_mem_drop (List.mem_of_mem_take h)
    · exact List.mem_of_mem_drop h
  obtain ⟨e, he, rfl⟩ := List.mem_map.1 ordered
  rw [List.mem_mergeSort] at he
  have all : e ∈ (s.places I).map fun p ↦ (s.record p, Meaning.keysAt s.orderBy p) := by
    rw [entries] at he
    split at he
    · exact (List.pwFilter_sublist _).subset he
    · exact he
  obtain ⟨p, -, rfl⟩ := List.mem_map.1 all
  rw [record, if_neg (by simpa using hc), List.map_map]
  rfl

/-- Without counts all records are given. -/
theorem records_of_unpaged (h : s.isPaged = false) : s.records I = s.ordered I := by
  simp only [isPaged, Bool.or_eq_false_iff, Option.isSome_eq_false_iff,
    Option.isNone_iff_eq_none] at h
  simp [records, count?, h.1, h.2]

/-- Stable expressions are computed once for each point. -/
theorem outputs_of_stable (hc : s.columns ≠ []) (hs : ∀ m ∈ s.exprs, m.IsStable) :
    s.outputs I = (s.points I).map fun q ↦ s.exprs.map (·.value { q with }) := by
  rw [outputs, places]
  refine List.ext_getElem? fun i ↦ ?_
  simp only [List.getElem?_map, List.getElem?_mapIdx, Option.map_map]
  congr 1
  funext q
  rw [Function.comp_apply, values_record hc]
  exact List.map_congr_left fun m hm ↦ hs m hm _ _ rfl

/-- What is put out depends on the rows, the groups and the select list alone. -/
theorem outputs_congr (hk : s'.kept I = s.kept I) (hg : s'.groupBy = s.groupBy)
    (hh : s'.having = s.having) (hgroups : s'.hasGroups = s.hasGroups)
    (hc : s'.columns = s.columns) : s'.outputs I = s.outputs I := by
  have key : s'.groupKey = s.groupKey := by
    funext row
    rw [groupKey, groupKey, hg]
  have record : s'.record = s.record := by
    funext p
    rw [Select.record, Select.record, hc]
  have points : s'.points I = s.points I := by
    simp only [Select.points, groups, hk, hg, hh, hgroups, key]
  simp only [outputs, places, points, record]

theorem rows_congr (hd : s'.distinct = s.distinct) (hk : s'.kept I = s.kept I)
    (hg : s'.groupBy = s.groupBy) (hh : s'.having = s.having)
    (hgroups : s'.hasGroups = s.hasGroups) (hc : s'.columns = s.columns) :
    s'.rows I = s.rows I := by
  rw [rows, rows, hd, outputs_congr hk hg hh hgroups hc]

/-- A stable select list that is a function of another puts out the values of the function. -/
theorem outputs_of_exprs {f : List V → List V} (hk : s'.kept I = s.kept I)
    (hg : s'.groupBy = s.groupBy) (hh : s'.having = s.having)
    (hgroups : s'.hasGroups = s.hasGroups) (hc : s.columns ≠ []) (hc' : s'.columns ≠ [])
    (stable : ∀ m ∈ s.exprs, m.IsStable) (stable' : ∀ m ∈ s'.exprs, m.IsStable)
    (hf : ∀ p, s'.exprs.map (·.value p) = f (s.exprs.map (·.value p))) :
    s'.outputs I = (s.outputs I).map f := by
  have key : s'.groupKey = s.groupKey := by
    funext row
    rw [groupKey, groupKey, hg]
  have points : s'.points I = s.points I := by
    simp only [Select.points, groups, hk, hg, hh, hgroups, key]
  rw [outputs_of_stable hc' stable', outputs_of_stable hc stable, points, List.map_map]
  exact List.map_congr_left fun q _ ↦ hf { q with }

namespace IsFlat

/-- The outputs are computed row by row. -/
theorem outputs (h : s.IsFlat labels) (hc : s.columns ≠ []) :
    s.outputs I = (s.kept I).map s.rowValues := by
  rw [outputs_of_stable hc fun m hm ↦ (h.exprs m hm).isStable, points, h.hasGroups]
  rw [if_neg Bool.false_ne_true, List.map_map]
  rfl

omit [DecidableEq V] in
/-- A condition more keeps a part of the rows. -/
theorem kept_filter (h : s.IsFlat labels) {m : Meaning V} (hm : m.IsLocal labels)
    (keep : List V → Bool)
    (hk : ∀ row, I.holds (m.value (.ofRow row)) =
      (keeps I s.filter row && keep (s.rowValues row))) :
    IsFlat labels { s with filter := some m } ∧
      Select.kept I { s with filter := some m } = (s.kept I).filter (keep ∘ s.rowValues) := by
  refine ⟨⟨h.grouped, h.exprs, h.orderBy, by rintro _ ⟨⟩; exact hm, h.source⟩, ?_⟩
  rw [Select.kept, Select.kept, List.filter_filter]
  refine List.filter_congr fun row _ ↦ ?_
  rw [Bool.and_comm]
  exact hk row

/-- A condition more keeps a part of the outputs. -/
theorem outputs_filter (h : s.IsFlat labels) (hc : s.columns ≠ []) {m : Meaning V}
    (hm : m.IsLocal labels) (keep : List V → Bool)
    (hk : ∀ row, I.holds (m.value (.ofRow row)) =
      (keeps I s.filter row && keep (s.rowValues row))) :
    IsFlat labels { s with filter := some m } ∧
      Select.outputs I { s with filter := some m } = (s.outputs I).filter keep := by
  obtain ⟨flat, kept⟩ := h.kept_filter hm keep hk
  refine ⟨flat, ?_⟩
  rw [flat.outputs hc, h.outputs hc, List.filter_map, kept]
  rfl

end IsFlat

/-! ### Derived tables -/

/-- A select of all columns of a row source with one alias puts out the columns of the
records. -/
theorem outputs_selectAll {label : String} {names : List String} {records : List (Record V)}
    {m : Meaning V} (hc : s.columns ≠ []) (grouped : s.isGrouped = false)
    (filter : s.filter = none) (orderBy : ∀ k ∈ s.orderBy, k.expr ∈ s.exprs)
    (source : s.source = some m)
    (scopes : m.scopes = records.map fun record ↦ [(label, record)])
    (reads : List.Forall₂ (Reads I label) s.exprs names) :
    s.IsFlat [label] ∧ s.outputs I = records.map fun record ↦ names.map (record.get I) := by
  have exprs : ∀ m ∈ s.exprs, m.IsLocal [label] := by
    intro m hm
    obtain ⟨name, -, h⟩ := exists_of_mem_forall₂ reads.flip hm
    exact h.isLocal
  have flat : s.IsFlat [label] := by
    refine ⟨grouped, exprs, fun k hk ↦ exprs _ (orderBy k hk), by simp [filter], m, source, ?_⟩
    intro row hrow
    rw [scopes] at hrow
    obtain ⟨record, -, rfl⟩ := List.mem_map.1 hrow
    exact List.Subset.refl [label]
  refine ⟨flat, ?_⟩
  have kept : s.kept I = records.map fun record ↦ [(label, record)] := by
    rw [Select.kept, source, filter, Option.map_some, Option.getD_some, scopes]
    exact List.filter_eq_self.2 fun _ _ ↦ rfl
  rw [flat.outputs hc, kept, List.map_map]
  refine List.map_congr_left fun record _ ↦ ?_
  rw [Function.comp_apply, rowValues]
  have values : List.Forall₂ (· = ·) (s.exprs.map (·.value (.ofRow [(label, record)])))
      (names.map (record.get I)) := by
    rw [List.forall₂_map_left_iff, List.forall₂_map_right_iff]
    refine reads.imp fun m name h ↦ ?_
    rw [h.value]
    simp [Place.ofRow, Scope.get]
  rwa [List.forall₂_eq_eq_eq] at values

/-! ### Joins -/

private theorem flatMap_filter {α β : Type} (p : α → Bool) (f : α → List β) (l : List α) :
    (l.filter p).flatMap f = l.flatMap fun a ↦ if p a then f a else [] := by
  induction l with
  | nil => rfl
  | cons a l ih =>
    rw [List.filter_cons, List.flatMap_cons, ← ih]
    split
    · rw [List.flatMap_cons]
    · rfl

namespace IsFlat

variable {l r : Select (Meaning V)} {labels' : List String} {ls rs : Meaning V} {kind : JoinKind}
  {on : Option (Meaning V)} {pairs : List (Nat × Nat)} {width : Nat}

omit [DecidableEq V] in
theorem labels_subset (hl : l.IsFlat labels) (sourceL : l.source = some ls) :
    ∀ a ∈ ls.scopes, a.map (·.1) ⊆ labels := by
  obtain ⟨m, hm, h⟩ := hl.source
  rw [sourceL, Option.some.injEq] at hm
  exact hm ▸ h

omit [DecidableEq V] in
/-- On a joined row, a flat select of the left side reads the left row. -/
theorem append_left (hl : l.IsFlat labels) (disjoint : labels.Disjoint labels') {a b : Scope V}
    (hb : b.map (·.1) ⊆ labels') :
    l.rowValues (a ++ b) = l.rowValues a ∧ keeps I l.filter (a ++ b) = keeps I l.filter a := by
  refine ⟨List.map_congr_left fun m hm ↦ (hl.exprs m hm).value_append_left hb disjoint, ?_⟩
  rcases hf : l.filter with _ | m
  · rfl
  · exact congrArg I.holds ((hl.filter m hf).value_append_left hb disjoint)

omit [DecidableEq V] in
/-- On a joined row, a flat select of the right side reads the right row. -/
theorem append_right (hr : r.IsFlat labels') (disjoint : labels.Disjoint labels') {a b : Scope V}
    (ha : a.map (·.1) ⊆ labels) :
    r.rowValues (a ++ b) = r.rowValues b ∧ keeps I r.filter (a ++ b) = keeps I r.filter b := by
  refine ⟨List.map_congr_left fun m hm ↦ (hr.exprs m hm).value_append_right ha disjoint, ?_⟩
  rcases hf : r.filter with _ | m
  · rfl
  · exact congrArg I.holds ((hr.filter m hf).value_append_right ha disjoint)

omit [DecidableEq V] in
/-- A select of the columns of two flat selects, whose row source joins theirs, is flat. -/
theorem join (hl : l.IsFlat labels) (hr : r.IsFlat labels') (sourceL : l.source = some ls)
    (sourceR : r.source = some rs) (grouped : s.isGrouped = false) (orderBy : s.orderBy = [])
    (exprs : s.exprs = l.exprs ++ r.exprs) (filter : ∀ m ∈ s.filter, m.IsLocal (labels ++ labels'))
    (source : s.source = some (ofSource I (joined I kind ls.scopes rs.scopes on))) :
    s.IsFlat (labels ++ labels') := by
  refine ⟨grouped, ?_, by simp [orderBy], filter, _, source, fun row hrow ↦ ?_⟩
  · rw [exprs, List.forall_mem_append]
    exact ⟨fun m hm ↦ (hl.exprs m hm).mono (List.subset_append_left _ _),
      fun m hm ↦ (hr.exprs m hm).mono (List.subset_append_right _ _)⟩
  · obtain ⟨a, ha, hrow⟩ := List.mem_flatMap.1 hrow
    have onLeft := List.Subset.trans (hl.labels_subset sourceL a ha)
      (List.subset_append_left labels labels')
    dsimp only at hrow
    split at hrow
    · exact List.mem_singleton.1 hrow ▸ onLeft
    · obtain ⟨b, hb, rfl⟩ := List.mem_map.1 (List.mem_filter.1 hrow).1
      rw [List.map_append]
      exact List.append_subset.2 ⟨onLeft,
        List.Subset.trans (hr.labels_subset sourceR b hb) (List.subset_append_right _ _)⟩

omit [DecidableEq V] in
/-- Rows that a select with a row source keeps. -/
private theorem kept_eq (source : s.source = some ls) :
    s.kept I = ls.scopes.filter (keeps I s.filter) := by
  rw [Select.kept, source]
  rfl

omit [DecidableEq V] in
/-- An inner join of two flat selects keeps the pairs of their rows that match. -/
theorem kept_innerJoin (hl : l.IsFlat labels) (hr : r.IsFlat labels')
    (disjoint : labels.Disjoint labels') (sourceL : l.source = some ls)
    (sourceR : r.source = some rs) (hkind : kind ≠ .leftOuter)
    (exprs : s.exprs = l.exprs ++ r.exprs)
    (source : s.source = some (ofSource I (joined I kind ls.scopes rs.scopes on)))
    (filter : ∀ row, keeps I s.filter row = (keeps I l.filter row && keeps I r.filter row))
    (hon : ∀ row, keeps I on row = Relation.pairsHold I pairs (l.rowValues row) (r.rowValues row)) :
    (s.kept I).map s.rowValues = Relation.joinedRows I .inner pairs width
      ((l.kept I).map l.rowValues) ((r.kept I).map r.rowValues) := by
  have values (row : Scope V) : s.rowValues row = l.rowValues row ++ r.rowValues row := by
    rw [rowValues, exprs, List.map_append]
    rfl
  have kept : s.kept I = (ls.scopes.flatMap fun a ↦
      (rs.scopes.map (a ++ ·)).filter (keeps I on)).filter (keeps I s.filter) := by
    rw [kept_eq source]
    simp only [ofSource, joined, hkind, false_and, if_false]
  rw [kept, kept_eq sourceL, kept_eq sourceR, List.filter_flatMap, List.map_flatMap,
    Relation.joinedRows, List.flatMap_map, flatMap_filter]
  refine List.flatMap_congr fun a ha ↦ ?_
  have labelsA := hl.labels_subset sourceL a ha
  simp only [reduceCtorEq, false_and, if_false, List.filter_filter, List.filter_map, List.map_map,
    Function.comp_apply]
  have pair (b : Scope V) (hb : b ∈ rs.scopes) :
      (keeps I s.filter (a ++ b) && keeps I on (a ++ b)) = (keeps I l.filter a &&
        (Relation.pairsHold I pairs (l.rowValues a) (r.rowValues b) && keeps I r.filter b)) := by
    obtain ⟨valuesL, filterL⟩ := hl.append_left (I := I) (a := a) disjoint
      (hr.labels_subset sourceR b hb)
    obtain ⟨valuesR, filterR⟩ := hr.append_right (I := I) (b := b) disjoint labelsA
    rw [filter, hon, valuesL, filterL, valuesR, filterR, Bool.and_assoc,
      Bool.and_comm (keeps I r.filter b)]
  by_cases hf : keeps I l.filter a
  · rw [if_pos hf]
    have same : (rs.scopes.filter fun b ↦ keeps I s.filter (a ++ b) && keeps I on (a ++ b)) =
        rs.scopes.filter fun b ↦
          Relation.pairsHold I pairs (l.rowValues a) (r.rowValues b) && keeps I r.filter b :=
      List.filter_congr fun b hb ↦ by rw [pair b hb, hf, Bool.true_and]
    rw [same]
    refine List.map_congr_left fun b hb ↦ ?_
    have hb' := hr.labels_subset sourceR b (List.mem_of_mem_filter hb)
    rw [Function.comp_apply, values, (hl.append_left (I := I) disjoint hb').1,
      (hr.append_right (I := I) disjoint labelsA).1]
    rfl
  · rw [if_neg hf]
    have none : (rs.scopes.filter fun b ↦ keeps I s.filter (a ++ b) && keeps I on (a ++ b)) =
        [] := by
      refine List.filter_eq_nil_iff.2 fun b hb ↦ ?_
      simp [pair b hb, hf]
    rw [none]
    rfl

omit [DecidableEq V] in
/-- A left outer join of two flat selects keeps the pairs of their rows that match, and the left
rows that match nothing, if all columns of the right side read NULL without a row. -/
theorem kept_leftJoin (hl : l.IsFlat labels) (hr : r.IsFlat labels')
    (disjoint : labels.Disjoint labels') (sourceL : l.source = some ls)
    (sourceR : r.source = some rs) (exprs : s.exprs = l.exprs ++ r.exprs)
    (source : s.source = some (ofSource I (joined I .leftOuter ls.scopes rs.scopes on)))
    (filter : ∀ row, keeps I s.filter row = keeps I l.filter row)
    (hon : ∀ row, keeps I on row =
      (Relation.pairsHold I pairs (l.rowValues row) (r.rowValues row) && keeps I r.filter row))
    (absent : r.rowValues [] = List.replicate width I.null) :
    (s.kept I).map s.rowValues = Relation.joinedRows I .leftOuter pairs width
      ((l.kept I).map l.rowValues) ((r.kept I).map r.rowValues) := by
  have values (row : Scope V) : s.rowValues row = l.rowValues row ++ r.rowValues row := by
    rw [rowValues, exprs, List.map_append]
    rfl
  rw [kept_eq source, kept_eq sourceL, kept_eq sourceR, ofSource, joined, List.filter_flatMap,
    List.map_flatMap, Relation.joinedRows, List.flatMap_map, flatMap_filter]
  refine List.flatMap_congr fun a ha ↦ ?_
  have labelsA := hl.labels_subset sourceL a ha
  have onLeft (b : Scope V) (hb : b ∈ rs.scopes) :=
    hl.append_left (I := I) (a := a) disjoint (hr.labels_subset sourceR b hb)
  have onRight (b : Scope V) := hr.append_right (I := I) (b := b) disjoint labelsA
  have filterA : keeps I s.filter a = keeps I l.filter a := filter a
  have matching : (rs.scopes.map (a ++ ·)).filter (keeps I on) = (rs.scopes.filter fun b ↦
      Relation.pairsHold I pairs (l.rowValues a) (r.rowValues b) && keeps I r.filter b).map
        (a ++ ·) := by
    rw [List.filter_map]
    congr 1
    refine List.filter_congr fun b hb ↦ ?_
    rw [Function.comp_apply, hon, (onLeft b hb).1, (onRight b).1, (onRight b).2]
  have found : (((rs.scopes.filter (keeps I r.filter)).map r.rowValues).filter
        (Relation.pairsHold I pairs (l.rowValues a))).map (l.rowValues a ++ ·) =
      ((rs.scopes.map (a ++ ·)).filter (keeps I on)).map s.rowValues := by
    rw [matching, List.filter_map, List.filter_filter, List.map_map, List.map_map]
    refine List.map_congr_left fun b hb ↦ ?_
    rw [Function.comp_apply, Function.comp_apply, values,
      (onLeft b (List.mem_of_mem_filter hb)).1, (onRight b).1]
  have unmatched : s.rowValues a = l.rowValues a ++ List.replicate width I.null := by
    have alone := (onRight []).1
    rw [List.append_nil] at alone
    rw [values, alone, absent]
  have filtered : ∀ row ∈ (rs.scopes.map (a ++ ·)).filter (keeps I on),
      keeps I s.filter row = keeps I l.filter a := by
    intro row hrow
    obtain ⟨b, hb, rfl⟩ := List.mem_map.1 (List.mem_of_mem_filter hrow)
    rw [filter, (onLeft b hb).2]
  simp only [true_and, found, List.map_eq_nil_iff]
  by_cases hf : keeps I l.filter a
  · rw [if_pos hf]
    split
    · rw [List.filter_singleton, filterA, hf]
      exact congrArg (fun row ↦ [row]) unmatched
    · rw [List.filter_eq_self.2 fun row hrow ↦ (filtered row hrow).trans hf]
  · rw [if_neg hf]
    split
    · simp [filterA, hf]
    · rw [List.filter_eq_nil_iff.2 fun row hrow ↦ by rw [filtered row hrow]; exact hf]
      rfl

end IsFlat

/-! ### Groups -/

/-- Grouping a flat select puts out, for each key of its outputs, the key and the aggregates of
the outputs that have it. -/
theorem IsFlat.outputs_aggregate {groupBy : List Nat} {aggregates : List Aggregation}
    {types : List SqlType} {gs as : List (Meaning V)} (flat : s.IsFlat labels)
    (hc : s.columns ≠ []) (hg : groupBy ≠ []) (hc' : s'.columns ≠ [])
    (exprs : s'.exprs = gs ++ as) (kept : s'.kept I = s.kept I) (group : s'.groupBy = gs)
    (having : s'.having = none) (locals : ∀ m ∈ gs, m.IsLocal labels)
    (keys : ∀ p, gs.map (·.value p) = groupBy.map (I.at (s.exprs.map (·.value p))))
    (values : ∀ p : Place V,
      as.map (·.value p) = aggregates.map (·.value I types (p.group.map s.rowValues))) :
    (∀ m ∈ s'.exprs, m.IsStable) ∧
      s'.outputs I = Relation.aggregatedRows I types groupBy aggregates (s.outputs I) := by
  have grouped : gs.isEmpty = false := by
    have length := congrArg List.length (keys (.ofRow []))
    rw [List.length_map, List.length_map] at length
    rw [List.isEmpty_eq_false_iff, ← List.length_pos_iff, length, List.length_pos_iff]
    exact hg
  have stable : ∀ m ∈ s'.exprs, m.IsStable := by
    rw [exprs, List.forall_mem_append]
    refine ⟨fun m hm ↦ (locals m hm).isStable, fun m hm p p' hp ↦ ?_⟩
    have same : as.map (·.value p) = as.map (·.value p') := by rw [values, values, hp]
    exact List.map_inj_left.1 same m hm
  refine ⟨stable, ?_⟩
  let key (row : List V) := groupBy.map (I.at row)
  have groupKey : s'.groupKey = key ∘ s.rowValues := by
    funext row
    rw [Select.groupKey, group, keys]
    rfl
  have points : s'.points I = (((s.kept I).map (key ∘ s.rowValues)).dedup.map fun k ↦
      (s.kept I).filter fun row ↦ key (s.rowValues row) = k).map fun g ↦ ⟨g.headD [], g⟩ := by
    have hasGroups : s'.hasGroups = true :=
      hasGroups_of_isGrouped (by simp [isGrouped, group, grouped])
    rw [Select.points, if_pos hasGroups, having]
    simp only [Option.all_none, List.filter_true]
    rw [groups, group, grouped, if_neg Bool.false_ne_true, kept, groupKey]
    rfl
  rw [outputs_of_stable hc' stable, points, flat.outputs hc, Relation.aggregatedRows,
    List.map_map, List.map_map]
  simp only [List.isEmpty_eq_false_iff.2 hg, Bool.false_eq_true, if_false, List.map_map]
  refine List.map_congr_left fun k hk ↦ ?_
  obtain ⟨row, hrow, hk⟩ := List.mem_map.1 (List.mem_dedup.1 hk)
  -- the row that stands for a group is one of the group, so it has the key
  obtain ⟨first, rest, hgroup⟩ : ∃ first rest,
      ((s.kept I).filter fun row ↦ key (s.rowValues row) = k) = first :: rest :=
    List.exists_cons_of_ne_nil (List.ne_nil_of_mem (List.mem_filter.2 ⟨hrow, by simpa using hk⟩))
  have first_key : gs.map (·.value (.ofRow first)) = k := by
    have member : first ∈ (s.kept I).filter fun row ↦ key (s.rowValues row) = k := by
      rw [hgroup]
      exact List.mem_cons_self
    rw [keys]
    exact of_decide_eq_true (List.mem_filter.1 member).2
  have rows : ((s.kept I).map s.rowValues).filter (fun row ↦ key row = k) =
      (first :: rest).map s.rowValues := by
    rw [List.filter_map, ← hgroup]
    rfl
  simp only [Function.comp_apply, hgroup, List.headD_cons, exprs, List.map_append, values]
  congr 1
  · rw [← first_key]
    exact List.map_congr_left fun m hm ↦ (locals m hm).value_row _
  · exact List.map_congr_left fun a _ ↦ by rw [← rows]

end Select

end SqlWright
