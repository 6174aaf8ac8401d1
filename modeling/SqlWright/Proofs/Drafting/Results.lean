import SqlWright.Proofs.Drafting.Growing

/-!
# Results of drafts

The select that each operation makes where its run succeeds, from the runs of its parts: the
trees it asks for, the clauses it adds, and the condition under which it does.
-/

namespace SqlWright

variable {d d' : Draft}

open Drafting

namespace Compiled

open Draft

/-- Columns of a row source, each under its own name. -/
private theorem columns_ok {label : String} {infos : List HeaderColumn}
    {columns : List (OutputColumn Tree)}
    (h : (infos.mapM fun c ↦ return ⟨← column label c.name, none⟩ : Drafting _) d =
      .ok (columns, d')) :
    ∃ exprs : List Tree, columns = exprs.map (⟨·, none⟩) ∧
      exprs.map Tree.node = infos.map fun c ↦ .column (some label) c.name := by
  induction infos generalizing d columns with
  | nil =>
    rw [List.mapM_nil, pure_ok] at h
    exact ⟨[], h.1.symm, rfl⟩
  | cons c infos ih =>
    rw [List.mapM_cons] at h
    simp only [bind_ok, pure_ok] at h
    obtain ⟨_, _, ⟨t, _, ht, rfl, rfl⟩, rest, _, hrest, rfl, rfl⟩ := h
    obtain ⟨rfl, -⟩ := node_ok.1 ht
    obtain ⟨exprs, rfl, he⟩ := ih hrest
    exact ⟨_ :: exprs, rfl, by rw [List.map_cons, List.map_cons, he, node_made]⟩

/-- A select of all columns reads each column of a header from its row source. -/
theorem selectAll_ok {source : Tree} {label : String} {header : Header} {s : Select Tree}
    (h : selectAll source label header d = .ok (s, d')) :
    ∃ exprs : List Tree, s = { columns := exprs.map (⟨·, none⟩), source := some source } ∧
      exprs.map Tree.node = header.columns.map fun c ↦ .column (some label) c.name := by
  simp only [selectAll, bind_ok, pure_ok] at h
  obtain ⟨columns, _, hc, rfl, rfl⟩ := h
  obtain ⟨exprs, rfl, he⟩ := columns_ok hc
  exact ⟨exprs, rfl, he⟩

/-- A select of all columns has no other clauses. -/
theorem selectAll_plain {source : Tree} {label : String} {header : Header} {s : Select Tree}
    (h : selectAll source label header d = .ok (s, d')) :
    { s with filter := none, orderBy := [] } = s := by
  obtain ⟨exprs, rfl, -⟩ := selectAll_ok h
  rfl

/-- A stored table is read in full, under a new alias. -/
theorem ofTable_ok {t : Table} {c : Compiled} (h : ofTable t d = .ok (c, d')) :
    ∃ source d₁, node (.table t.schema t.name (some (aliasName d.aliases)))
        { d with aliases := d.aliases + 1 } = .ok (source, d₁) ∧
      selectAll source (aliasName d.aliases) (.ofTable t) d₁ = .ok (c.select, d') ∧
      c.header = .ofTable t := by
  simp only [ofTable, bind_ok, pure_ok, nextAlias_ok] at h
  obtain ⟨_, _, ⟨rfl, rfl⟩, source, d₁, hs, select, _, hc, rfl, rfl⟩ := h
  exact ⟨source, d₁, hs, hc, rfl⟩

/-- A native query is read as a derived table, under a new alias. -/
theorem ofNative_ok {sql : String} {header : Header} {c : Compiled}
    (h : ofNative sql header d = .ok (c, d')) :
    ∃ query d₁ source d₂, node (.native sql) { d with aliases := d.aliases + 1 } = .ok (query, d₁) ∧
      node (.queryRef query (aliasName d.aliases)) d₁ = .ok (source, d₂) ∧
      selectAll source (aliasName d.aliases) header d₂ = .ok (c.select, d') ∧
      c.header = header := by
  simp only [ofNative, bind_ok, pure_ok, nextAlias_ok] at h
  obtain ⟨_, _, ⟨rfl, rfl⟩, query, d₁, hq, source, d₂, hs, select, _, hc, rfl, rfl⟩ := h
  exact ⟨query, d₁, source, d₂, hq, hs, hc, rfl⟩

/-- Select that becomes a derived table: it keeps its ordering only if that chooses rows. -/
def derived (c : Compiled) : Select Tree :=
  if c.select.isPaged then c.select else { c.select with orderBy := [] }

/-- A wrapped select is read as a derived table, under a new alias. -/
theorem wrap_ok {c c' : Compiled} (h : c.wrap d = .ok (c', d')) :
    ∃ query d₁ source d₂ outer,
      node (.select c.derived) { d with aliases := d.aliases + 1 } = .ok (query, d₁) ∧
      node (.queryRef query (aliasName d.aliases)) d₁ = .ok (source, d₂) ∧
      selectAll source (aliasName d.aliases) c.header d₂ = .ok (outer, d') ∧
      c' = ⟨{ outer with orderBy := outerOrder c.select outer.exprs }, c.header⟩ := by
  simp only [wrap, bind_ok, pure_ok, nextAlias_ok] at h
  obtain ⟨_, _, ⟨rfl, rfl⟩, query, d₁, hq, source, d₂, hs, outer, _, ho, rfl, rfl⟩ := h
  exact ⟨query, d₁, source, d₂, outer, hq, hs, ho, rfl⟩

/-- A filtered select has one more condition. -/
theorem filter_ok {c c' : Compiled} {e : Scalar} (h : c.filter e d = .ok (c', d')) :
    ∃ condition d₁ filter, scalar c.select.exprs e d = .ok (condition, d₁) ∧
      conjunction c.select.filter condition d₁ = .ok (filter, d') ∧
      c' = { c with select := { c.select with filter := some filter } } := by
  simp only [Compiled.filter, bind_ok, pure_ok] at h
  obtain ⟨condition, d₁, hs, filter, _, hf, rfl, rfl⟩ := h
  exact ⟨condition, d₁, filter, hs, hf, rfl⟩

/-- A join condition asks for the equality of one pair after the other. -/
theorem joinCondition_cons_ok {left right : List Tree} {condition result : Option Tree}
    {l r : Nat} {rest : List (Nat × Nat)}
    (h : joinCondition left right condition ((l, r) :: rest) d = .ok (result, d')) :
    ∃ a b equality d₁ joined d₂, left[l]? = some a ∧ right[r]? = some b ∧
      node (.binary .eq a b) d = .ok (equality, d₁) ∧
      conjunction condition equality d₁ = .ok (joined, d₂) ∧
      joinCondition left right (some joined) rest d₂ = .ok (result, d') := by
  simp only [joinCondition, bind_ok, lift_ok, columnAt_ok] at h
  obtain ⟨a, _, ⟨ha, rfl⟩, b, _, ⟨hb, rfl⟩, equality, d₁, he, joined, d₂, hj, h⟩ := h
  exact ⟨a, b, equality, d₁, joined, d₂, ha, hb, he, hj, h⟩

/-- Of two conditions both have to hold, if there are two. -/
private theorem bothOf_ok {a b r : Option Tree} (h : bothOf a b d = .ok (r, d')) :
    (∃ x y t, a = some x ∧ b = some y ∧ r = some t ∧ node (.binary .and x y) d = .ok (t, d')) ∨
      (a = none ∨ b = none) ∧ r = a.or b ∧ d' = d := by
  rcases a with _ | x
  · obtain ⟨rfl, rfl⟩ := pure_ok.1 h
    exact .inr ⟨.inl rfl, by cases b <;> rfl, rfl⟩
  rcases b with _ | y
  · obtain ⟨rfl, rfl⟩ := pure_ok.1 h
    exact .inr ⟨.inr rfl, rfl, rfl⟩
  · obtain ⟨t, ht, rfl⟩ := map_ok.1 h
    exact .inl ⟨x, y, t, rfl, rfl, rfl, ht⟩

/-- The condition of a page compares the row number with either end that there is. -/
theorem numberCondition_ok {row : Tree} {skip take result : Option Tree}
    (h : numberCondition row skip take d = .ok (result, d')) :
    ∃ lower d₁ upper d₂, skip.mapM (fun s ↦ node (.binary .gt row s)) d = .ok (lower, d₁) ∧
      (take = none ∧ upper = none ∧ d₁ = d₂ ∨
        ∃ t last d₃ u, take = some t ∧ upper = some u ∧
          (match skip with
            | some s => sumCounts s t d₁ = .ok (last, d₃)
            | none => last = t ∧ d₃ = d₁) ∧
          node (.binary .ltEq row last) d₃ = .ok (u, d₂)) ∧
      ((∃ l u t, lower = some l ∧ upper = some u ∧ result = some t ∧
          node (.binary .and l u) d₂ = .ok (t, d')) ∨
        (lower = none ∨ upper = none) ∧ result = lower.or upper ∧ d' = d₂) := by
  simp only [numberCondition_eq, bind_ok] at h
  obtain ⟨lower, d₁, hl, upper, d₂, hu, h⟩ := h
  refine ⟨lower, d₁, upper, d₂, hl, ?_, ?_⟩
  · rcases mapM_option_ok.1 hu with ⟨rfl, rfl, rfl⟩ | ⟨t, u, rfl, rfl, ht⟩
    · exact .inl ⟨rfl, rfl, rfl⟩
    · obtain ⟨last, d₃, hlast, ht⟩ := bind_ok.1 ht
      refine .inr ⟨t, last, d₃, u, rfl, rfl, ?_, ht⟩
      cases skip with
      | none =>
        obtain ⟨rfl, rfl⟩ := pure_ok.1 hlast
        exact ⟨rfl, rfl⟩
      | some s => exact hlast
  · exact bothOf_ok h

/-- Select that is paged by row numbers: it has a column of these as well. -/
def withNumbers (c : Compiled) (number : Tree) : Select Tree :=
  { c.select with
    columns := c.select.columns ++ [⟨number, some c.numberName⟩]
    orderBy := if c.select.isPaged then c.select.orderBy else [] }

/-- A page by row numbers reads the numbered source as a derived table. -/
theorem numberedPage_ok {c c' : Compiled} {skip take : Option Scalar}
    (h : c.numberedPage skip take d = .ok (c', d')) :
    ∃ number d₁ query d₂ source d₃ outer d₄ row d₅ low d₆ high d₇ filter,
      node (.rowNumber c.numberingOrder) d = .ok (number, d₁) ∧
      node (.select (c.withNumbers number)) { d₁ with aliases := d₁.aliases + 1 } =
        .ok (query, d₂) ∧
      node (.queryRef query (aliasName d₁.aliases)) d₂ = .ok (source, d₃) ∧
      selectAll source (aliasName d₁.aliases) c.header d₃ = .ok (outer, d₄) ∧
      column (aliasName d₁.aliases) c.numberName d₄ = .ok (row, d₅) ∧
      skip.mapM (scalar []) d₅ = .ok (low, d₆) ∧ take.mapM (scalar []) d₆ = .ok (high, d₇) ∧
      numberCondition row low high d₇ = .ok (filter, d') ∧
      c' = ⟨{ outer with filter, orderBy := [SortKey.of row true] }, c.header⟩ := by
  simp only [numberedPage, numbered, bind_ok, pure_ok, nextAlias_ok] at h
  obtain ⟨_, _, ⟨number, d₁, hn, rfl, rfl⟩, _, _, ⟨rfl, rfl⟩, query, d₂, hq, source, d₃, hs,
    outer, d₄, ho, row, d₅, hr, low, d₆, hl, high, d₇, hh, filter, _, hf, rfl, rfl⟩ := h
  exact ⟨number, d₁, query, d₂, source, d₃, outer, d₄, row, d₅, low, d₆, high, d₇, filter,
    hn, hq, hs, ho, hr, hl, hh, hf, rfl⟩

/-- A projection has the output columns and the header columns at its positions. -/
theorem project_ok {c c' : Compiled} {columns : List Nat} (h : c.project columns = .ok c') :
    ∃ chosen : List (OutputColumn Tree × HeaderColumn),
      List.Forall₂ (fun i p ↦ c.select.columns[i]? = some p.1 ∧ c.header.columns[i]? = some p.2)
        columns chosen ∧
      c' = ⟨{ c.select with columns := chosen.map (·.1) },
        (Header.ofColumns (chosen.map (·.2))).withOrder
          (projectedOrder c.header.order columns)⟩ := by
  obtain ⟨chosen, hm, h⟩ := bind_except_ok.1 h
  refine ⟨chosen, ?_, (Except.ok.inj h).symm⟩
  refine (mapM_except_ok.1 hm).imp fun i p hp ↦ ?_
  split at hp
  · next column info hc hi =>
    cases hp
    exact ⟨hc, hi⟩
  · cases hp

/-- A sort orders the rows by the columns at its positions. -/
theorem sort_ok {c c' : Compiled} {order : List SortItem} (h : c.sort order = .ok c') :
    ∃ orderBy, List.Forall₂ (fun item k ↦ ∃ t, c.select.exprs[item.column]? = some t ∧
        k = SortKey.of t item.ascending) order orderBy ∧
      c' = ⟨{ c.select with orderBy }, c.header.withOrder order⟩ := by
  obtain ⟨orderBy, hm, h⟩ := bind_except_ok.1 h
  refine ⟨orderBy, ?_, (Except.ok.inj h).symm⟩
  refine (mapM_except_ok.1 hm).imp fun item k hk ↦ ?_
  obtain ⟨t, ht, hk⟩ := bind_except_ok.1 hk
  exact ⟨t, columnAt_ok.1 ht, (Except.ok.inj hk).symm⟩

/-- An inner join keeps the rows that meet the filters of both sides. -/
theorem joinParts_inner_ok {condition left right on filter : Option Tree} {kind : JoinKind}
    (h : joinParts .inner condition left right d = .ok ((kind, on, filter), d')) :
    kind = (if condition.isSome then .inner else .cross) ∧ on = condition ∧
      ((∃ x y t, left = some x ∧ right = some y ∧ filter = some t ∧
          node (.binary .and x y) d = .ok (t, d')) ∨
        (left = none ∨ right = none) ∧ filter = left.or right ∧ d' = d) := by
  simp only [joinParts_inner_eq, bind_ok, pure_ok] at h
  obtain ⟨_, _, hb, hp, rfl⟩ := h
  cases hp
  exact ⟨rfl, rfl, bothOf_ok hb⟩

/-- A left outer join matches the right rows that meet the filter of their side. -/
theorem joinParts_leftOuter_ok {condition left right on filter : Option Tree} {kind : JoinKind}
    (h : joinParts .leftOuter condition left right d = .ok ((kind, on, filter), d')) :
    kind = .leftOuter ∧ filter = left ∧
      ∃ c d₁, (condition = some c ∧ d₁ = d ∨
          condition = none ∧ ∃ a d₂ b d₃, integer 1 d = .ok (a, d₂) ∧ integer 1 d₂ = .ok (b, d₃) ∧
            node (.binary .eq a b) d₃ = .ok (c, d₁)) ∧
        ∃ t, on = some t ∧
          (right = none ∧ t = c ∧ d' = d₁ ∨
            ∃ f, right = some f ∧ node (.binary .and c f) d₁ = .ok (t, d')) := by
  simp only [joinParts_leftOuter_eq, bind_ok, pure_ok] at h
  obtain ⟨c, d₁, hc, t, _, ht, hp, rfl⟩ := h
  cases hp
  refine ⟨rfl, rfl, c, d₁, ?_, t, rfl, ?_⟩
  · rcases condition with _ | c
    · simp only [outerCondition, bind_ok] at hc
      obtain ⟨a, d₂, ha, b, d₃, hb, hc⟩ := hc
      exact .inr ⟨rfl, a, d₂, b, d₃, ha, hb, hc⟩
    · obtain ⟨rfl, rfl⟩ := pure_ok.1 hc
      exact .inl ⟨rfl, rfl⟩
  · rcases right with _ | f
    · obtain ⟨rfl, rfl⟩ := pure_ok.1 ht
      exact .inl ⟨rfl, rfl, rfl⟩
    · exact .inr ⟨f, rfl, ht⟩

/-- A join reads the row sources of both sides, which are wrapped where they have to be. -/
theorem join_ok {left right c : Compiled} {type : JoinType} {pairs : List (Nat × Nat)}
    (h : left.join right type pairs d = .ok (some c, d')) :
    ∃ l d₁ r d₂ leftSource rightSource condition d₃ kind on filter d₄ source,
      left.wrapFor .join d = .ok (l, d₁) ∧ right.wrapFor .join d₁ = .ok (r, d₂) ∧
      l.select.source = some leftSource ∧ r.select.source = some rightSource ∧
      joinCondition l.select.exprs r.select.exprs none pairs d₂ = .ok (condition, d₃) ∧
      joinParts type condition l.select.filter r.select.filter d₃ = .ok ((kind, on, filter), d₄) ∧
      node (.join kind leftSource rightSource on) d₄ = .ok (source, d') ∧
      c = ⟨{ columns := (joinColumns l r).select.columns, source := some source, filter },
        (joinColumns l r).header.withOrder (joinOrder l.header r.header)⟩ := by
  simp only [join, bind_ok] at h
  obtain ⟨l, d₁, hl, r, d₂, hr, h⟩ := h
  rcases hls : l.select.source with _ | leftSource
  · simp only [hls, pure_ok, reduceCtorEq, false_and] at h
  rcases hrs : r.select.source with _ | rightSource
  · simp only [hls, hrs, pure_ok, reduceCtorEq, false_and] at h
  simp only [hls, hrs, bind_ok, pure_ok, Option.some.injEq] at h
  obtain ⟨condition, d₃, hc, ⟨kind, on, filter⟩, d₄, hp, source, _, hs, rfl, rfl⟩ := h
  exact ⟨l, d₁, r, d₂, leftSource, rightSource, condition, d₃, kind, on, filter, d₄, source,
    hl, hr, hls, hrs, hc, hp, hs, rfl⟩

/-- What adding a column keeps, adding those of the right side keeps. -/
theorem joinColumns_keeps {left right : Compiled} {p : Compiled → Prop} (hl : p left)
    (h : ∀ c t info, p c → p (c.appendColumn t info)) : p (joinColumns left right) := by
  unfold joinColumns
  induction right.select.columns.zip right.header.columns generalizing left with
  | nil => exact hl
  | cons q rest ih => exact ih (h left q.1.expr q.2 hl)

/-- What a column adds, those of the right side add one after the other. -/
theorem joinColumns_adds {β : Type} {f : Compiled → List β} {g : Tree → HeaderColumn → β}
    (h : ∀ c t info, f (c.appendColumn t info) = f c ++ [g t info]) (left right : Compiled) :
    f (joinColumns left right) =
      f left ++ (right.select.columns.zip right.header.columns).map fun p ↦ g p.1.expr p.2 := by
  unfold joinColumns
  induction right.select.columns.zip right.header.columns generalizing left with
  | nil => exact (List.append_nil _).symm
  | cons q rest ih =>
    rw [List.foldl_cons, ih, h, List.append_assoc]
    rfl

/-- An aggregate function is of its column, if it has one, and is cast where its type asks for
that; all but counting need a column. -/
theorem aggregateExpr_ok {a : Aggregation} {header : Header} {exprs : List Tree} {t : Tree}
    (h : aggregateExpr a header exprs d = .ok (t, d')) :
    ∃ operand call d₁, (a.column = none ∧ operand = none ∨
        ∃ i u, a.column = some i ∧ exprs[i]? = some u ∧ operand = some u) ∧
      (a.kind = .count ∨ operand.isSome) ∧
      node (.aggregate a.kind false operand) d = .ok (call, d₁) ∧
      ((∃ type, aggregateCast a header = some type ∧ node (.cast call type) d₁ = .ok (t, d')) ∨
        aggregateCast a header = none ∧ t = call ∧ d' = d₁) := by
  simp only [aggregateExpr, bind_ok] at h
  obtain ⟨operand, d₁, ho, h⟩ := h
  have found : d₁ = d ∧ (a.column = none ∧ operand = none ∨
      ∃ i u, a.column = some i ∧ exprs[i]? = some u ∧ operand = some u) := by
    obtain ⟨hc, hn, rfl⟩ | ⟨i, u, hc, hu, hi⟩ := mapM_option_ok.1 ho
    · exact ⟨rfl, .inl ⟨hc, hn⟩⟩
    · obtain ⟨hfound, rfl⟩ := lift_ok.1 hi
      exact ⟨rfl, .inr ⟨i, u, hc, columnAt_ok.1 hfound, hu⟩⟩
  obtain ⟨rfl, found⟩ := found
  split at h
  · next => simp only [bind_ok, throw_ok, false_and, exists_false] at h
  · next hk =>
    simp only [bind_ok] at h
    obtain ⟨call, d₂, hcall, h⟩ := h
    refine ⟨operand, call, d₂, found, ?_, hcall, ?_⟩
    · by_cases hkind : a.kind = .count
      · exact .inl hkind
      · exact .inr (by simpa [hkind, Option.isSome_iff_ne_none] using hk)
    · rcases ht : aggregateCast a header with _ | type
      · simp only [ht, pure_ok] at h
        exact .inr ⟨rfl, h.1.symm, h.2.symm⟩
      · simp only [ht] at h
        exact .inl ⟨type, rfl, h⟩

/-- A grouped column is one that both the select and its header have. -/
theorem groupColumns_cons_ok {c groups c' : Compiled} {i : Nat} {rest : List Nat}
    (h : c.groupColumns groups (i :: rest) = .ok c') :
    ∃ expr info, c.select.exprs[i]? = some expr ∧ c.header.columns[i]? = some info ∧
      c.groupColumns (groups.appendColumn expr info) rest = .ok c' := by
  unfold groupColumns at h
  obtain ⟨expr, he, h⟩ := bind_except_ok.1 h
  split at h
  · next info hi => exact ⟨expr, info, columnAt_ok.1 he, hi, h⟩
  · cases h

/-- An aggregation puts out the grouped columns and the aggregates. -/
theorem aggregate_ok {c c' : Compiled} {groupBy : List Nat} {aggregates : List Aggregation}
    (h : c.aggregate groupBy aggregates d = .ok (c', d')) :
    ∃ groups all, c.groupColumns ⟨{}, {}⟩ groupBy = .ok groups ∧
      c.aggregateColumns groups aggregates d = .ok (all, d') ∧
      c' = ⟨{ c.select with
          columns := all.select.columns
          groupBy := groups.select.exprs
          orderBy := [] },
        all.header.withOrder ((List.range groupBy.length).map (⟨·, true⟩))⟩ := by
  simp only [aggregate, bind_ok, pure_ok, lift_ok] at h
  obtain ⟨groups, _, ⟨hg, rfl⟩, all, _, ha, rfl, rfl⟩ := h
  exact ⟨groups, all, hg, ha, rfl⟩

/-- The smaller of two counts is computed at once, or compares them. -/
theorem minCount_ok {a b t : Tree} (h : minCount a b d = .ok (t, d')) :
    (∃ x y, integer? a = some x ∧ integer? b = some y ∧
      node (.literal (.integer (if x ≤ y then x else y))) d = .ok (t, d')) ∨
    ∃ less d₁, node (.binary .lt a b) d = .ok (less, d₁) ∧
      node (.case [(less, a)] (some b)) d₁ = .ok (t, d') := by
  unfold minCount at h
  rcases ha : integer? a with _ | x
  · simp only [ha, bind_ok] at h
    exact .inr h
  rcases hb : integer? b with _ | y
  · simp only [ha, hb, bind_ok] at h
    exact .inr h
  · simp only [ha, hb] at h
    exact .inl ⟨x, y, rfl, rfl, h⟩

/-- The sum of two counts is computed at once, or adds them. -/
theorem sumCounts_ok {a b t : Tree} (h : sumCounts a b d = .ok (t, d')) :
    (∃ x y, integer? a = some x ∧ integer? b = some y ∧
      node (.literal (.integer (saturatingSum x y))) d = .ok (t, d')) ∨
    node (.binary .plus a b) d = .ok (t, d') := by
  unfold sumCounts at h
  rcases ha : integer? a with _ | x
  · simp only [ha] at h
    exact .inr h
  rcases hb : integer? b with _ | y
  · simp only [ha, hb] at h
    exact .inr h
  · simp only [ha, hb] at h
    exact .inl ⟨x, y, rfl, rfl, h⟩

/-- A limit is the smaller of the new count and the one there is. -/
theorem limit_ok {c c' : Compiled} {count : Tree} {isOrdered : Bool}
    (h : c.limit count isOrdered d = .ok (c', d')) :
    ∃ l, (match c.select.limit with
        | some existing => minCount existing count d
        | none => .ok (count, d)) = .ok (l, d') ∧
      c' = ordered { c with select := { c.select with limit := some l } } isOrdered := by
  rcases he : c.select.limit with _ | existing
  · simp only [limit, he, bind_ok, pure_ok] at h
    obtain ⟨_, _, ⟨rfl, rfl⟩, rfl, rfl⟩ := h
    exact ⟨count, rfl, rfl⟩
  · simp only [limit, he, bind_ok, pure_ok] at h
    obtain ⟨l, _, hl, rfl, rfl⟩ := h
    exact ⟨l, hl, rfl⟩

/-- An offset is the sum of the new count and the one there is. -/
theorem offset_ok {c c' : Compiled} {count : Tree} {isOrdered : Bool}
    (h : c.offset count isOrdered d = .ok (c', d')) :
    ∃ l, (match c.select.offset with
        | some existing => sumCounts existing count d
        | none => .ok (count, d)) = .ok (l, d') ∧
      c' = ordered { c with select := { c.select with offset := some l } } isOrdered := by
  rcases he : c.select.offset with _ | existing
  · simp only [offset, he, bind_ok, pure_ok] at h
    obtain ⟨_, _, ⟨rfl, rfl⟩, rfl, rfl⟩ := h
    exact ⟨count, rfl, rfl⟩
  · simp only [offset, he, bind_ok, pure_ok] at h
    obtain ⟨l, _, hl, rfl, rfl⟩ := h
    exact ⟨l, hl, rfl⟩

end Compiled

end SqlWright
