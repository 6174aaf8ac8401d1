import SqlWright.Proofs.Paging.Counts
import SqlWright.Proofs.Paging.Numbering
import SqlWright.Proofs.Paging.Ordering

/-!
# Rows by their numbers

The outer select of a page by row numbers keeps the numbers of the page and sorts by them. It
gives the rows of the page in the order in which its source gives them.
-/

namespace SqlWright

variable {V : Type} [DecidableEq V] {I : Interpretation V} {db : Database V} {d d' : Draft}

open Drafting Draft Meaning Compiled

/-! ### Lists -/

private theorem filter_lt_zipIdx {α : Type} (l : List α) (hi n : Nat) :
    (l.zipIdx n).filter (fun q ↦ decide (q.2 < hi)) = (l.take (hi - n)).zipIdx n := by
  induction l generalizing n with
  | nil => simp
  | cons a l ih =>
    rw [List.zipIdx_cons, List.filter_cons, ih]
    by_cases h : n < hi
    · obtain ⟨k, hk⟩ : ∃ k, hi - n = k + 1 := ⟨hi - n - 1, by omega⟩
      rw [if_pos (by simpa using h), hk, List.take_succ_cons, List.zipIdx_cons]
      congr 3
      omega
    · rw [if_neg (by simpa using h), Nat.sub_eq_zero_of_le (not_lt.1 h),
        Nat.sub_eq_zero_of_le (by omega), List.take_zero, List.take_zero]
      rfl

private theorem map_filter_le_zipIdx {α : Type} (l : List α) (lo n : Nat) :
    ((l.zipIdx n).filter fun q ↦ decide (lo ≤ q.2)).map (·.1) = l.drop (lo - n) := by
  induction l generalizing n with
  | nil => simp
  | cons a l ih =>
    rw [List.zipIdx_cons, List.filter_cons]
    by_cases h : lo ≤ n
    · have drop : lo - n = 0 ∧ lo - (n + 1) = 0 := by omega
      rw [if_pos (by simpa using h), List.map_cons, ih, drop.1, drop.2]
      rfl
    · obtain ⟨k, hk⟩ : ∃ k, lo - n = k + 1 := ⟨lo - n - 1, by omega⟩
      rw [if_neg (by simpa using h), ih, hk, List.drop_succ_cons]
      congr 1
      omega

/-- The elements at positions from one number on and below another, if there is one. -/
private theorem map_filter_zipIdx {α : Type} (l : List α) (lo : Nat) (hi : Option Nat) :
    ((l.zipIdx.filter fun q ↦ decide (lo ≤ q.2) && hi.all (decide <| q.2 < ·)).map (·.1)) =
      match hi with
      | some n => (l.take n).drop lo
      | none => l.drop lo := by
  cases hi with
  | none =>
    simp only [Option.all_none, Bool.and_true]
    exact map_filter_le_zipIdx l lo 0
  | some n =>
    simp only [Option.all_some]
    rw [← List.filter_filter, filter_lt_zipIdx, Nat.sub_zero]
    exact map_filter_le_zipIdx (l.take n) lo 0

/-! ### The numbers of a page -/

/-- The last number of a page: that of the rows left out and taken together, or as good as that. -/
private def LastNumber (leaving taking last : Option Nat) : Prop :=
  Option.Rel (fun n k ↦ CountsAlike k (leaving.getD 0 + n)) taking last

omit [DecidableEq V] in
private theorem LastNumber.pageOf_eq {leaving taking last : Option Nat} {rows : List (List V)}
    (h : LastNumber leaving taking last) (length : rows.length < 2 ^ 63) :
    ((rows.zipIdx.filter fun q ↦
        decide (leaving.getD 0 ≤ q.2) && last.all (decide <| q.2 < ·)).map (·.1)) =
      Relation.pageOf leaving taking rows := by
  rw [map_filter_zipIdx]
  unfold Relation.pageOf
  cases h with
  | none => rfl
  | some h =>
    simp only
    rw [h.take_eq length, List.drop_take, Nat.add_sub_cancel_left]

variable {labels : List String} {row : Tree} {low high lower upper filter : Option Tree}
  {leaving taking : Option Nat}

/-- The lower end of a page is kept by the numbers above the rows left out. -/
private theorem keeps_lower (hI : I.CountsExactly) (hrow : (row.meaning I db).IsLocal labels)
    (hl : Tree.AllCountTo I db low leaving)
    (h : low.mapM (fun s ↦ node (.binary .gt row s)) d = .ok (lower, d')) :
    (∀ t ∈ lower, (t.meaning I db).IsLocal labels) ∧ ∀ (scope : Scope V) (k : Nat),
      (row.meaning I db).value (.ofRow scope) = I.integer (k + 1 : Nat) →
        keeps I (lower.map (Tree.meaning I db)) scope = decide (leaving.getD 0 ≤ k) := by
  rcases mapM_option_ok.1 h with ⟨rfl, rfl, -⟩ | ⟨s, t, rfl, rfl, ht⟩
  · cases hl
    exact ⟨nofun, fun _ _ _ ↦ by simp [keeps]⟩
  · obtain @⟨_, n, hs⟩ := hl
    refine ⟨by rintro _ ⟨⟩; exact isLocal_binary_node hrow (hs.isLocal labels) ht, ?_⟩
    intro scope k hk
    rw [Option.map_some, keeps, Option.all_some, value_binary_node ht, hk, hs.value, hI.gt,
      Option.getD_some]
    exact decide_eq_decide.2 (by omega)

/-- The upper end of a page is kept by the numbers up to the last one. -/
private theorem keeps_upper (hI : I.CountsExactly) (hrow : (row.meaning I db).IsLocal labels)
    (hl : Tree.AllCountTo I db low leaving) (hh : Tree.AllCountTo I db high taking)
    (h : high = none ∧ upper = none ∧ d = d' ∨
        ∃ t last d₃ u, high = some t ∧ upper = some u ∧
          (match low with
            | some s => sumCounts s t d = .ok (last, d₃)
            | none => last = t ∧ d₃ = d) ∧
          node (.binary .ltEq row last) d₃ = .ok (u, d')) :
    (∀ t ∈ upper, (t.meaning I db).IsLocal labels) ∧ ∃ last, LastNumber leaving taking last ∧
      ∀ (scope : Scope V) (k : Nat),
        (row.meaning I db).value (.ofRow scope) = I.integer (k + 1 : Nat) →
          keeps I (upper.map (Tree.meaning I db)) scope = last.all (decide <| k < ·) := by
  rcases h with ⟨rfl, rfl, -⟩ | ⟨t, last, d₃, u, rfl, rfl, hlast, hu⟩
  · cases hh
    exact ⟨nofun, none, .none, fun _ _ _ ↦ rfl⟩
  · obtain @⟨_, n, ht⟩ := hh
    obtain ⟨k, counts, alike⟩ : ∃ k, last.CountsTo I db k ∧ CountsAlike k (leaving.getD 0 + n) := by
      cases hl with
      | none =>
        obtain ⟨rfl, -⟩ := hlast
        exact ⟨n, ht, .inl (Nat.zero_add n).symm⟩
      | some hs => exact Tree.countsTo_sumCounts hI hs ht hlast
    refine ⟨by rintro _ ⟨⟩; exact isLocal_binary_node hrow (counts.isLocal labels) hu,
      some k, .some alike, fun scope i hi ↦ ?_⟩
    rw [Option.map_some, keeps, Option.all_some, value_binary_node hu, hi, counts.value, hI.ltEq,
      Option.all_some]
    exact decide_eq_decide.2 (by omega)

/-- The condition of a page holds of the row numbers that are above the rows left out and not
above the last number. -/
private theorem keeps_numberCondition (hI : I.CountsExactly)
    (hrow : (row.meaning I db).IsLocal labels) (hl : Tree.AllCountTo I db low leaving)
    (hh : Tree.AllCountTo I db high taking) (h : numberCondition row low high d = .ok (filter, d')) :
    (∀ t ∈ filter, (t.meaning I db).IsLocal labels) ∧
      ∃ last, LastNumber leaving taking last ∧ ∀ (scope : Scope V) (k : Nat),
        (row.meaning I db).value (.ofRow scope) = I.integer (k + 1 : Nat) →
          keeps I (filter.map (Tree.meaning I db)) scope =
            (decide (leaving.getD 0 ≤ k) && last.all (decide <| k < ·)) := by
  obtain ⟨lower, d₁, upper, d₂, hlower, hupper, both⟩ := numberCondition_ok h
  obtain ⟨local_lower, keeps_low⟩ := keeps_lower hI hrow hl hlower
  obtain ⟨local_upper, last, isLast, keeps_high⟩ := keeps_upper hI hrow hl hh hupper
  suffices combined : (∀ t ∈ filter, (t.meaning I db).IsLocal labels) ∧ ∀ scope : Scope V,
      keeps I (filter.map (Tree.meaning I db)) scope =
        (keeps I (lower.map (Tree.meaning I db)) scope &&
          keeps I (upper.map (Tree.meaning I db)) scope) by
    refine ⟨combined.1, last, isLast, fun scope k hk ↦ ?_⟩
    rw [combined.2, keeps_low scope k hk, keeps_high scope k hk]
  rcases both with ⟨l, u, t, rfl, rfl, rfl, ht⟩ | ⟨rfl | rfl, rfl, -⟩
  · refine ⟨?_, fun scope ↦ and_node_keeps ht scope⟩
    rintro _ ⟨⟩
    exact isLocal_binary_node (local_lower l rfl) (local_upper u rfl) ht
  · exact ⟨local_upper, fun scope ↦ (Bool.true_and _).symm⟩
  · rw [Option.or_none]
    exact ⟨local_lower, fun scope ↦ (Bool.and_true _).symm⟩

/-! ### The rows of a page -/

omit [DecidableEq V] in
/-- A record with one more column is read by the names that it had, and by the new one. -/
private theorem get_append {record : Record V} {name : String} {v : V}
    (nodup : (record.map (·.1)).Nodup) (fresh : name ∉ record.map (·.1)) :
    (record.map (·.1)).map (Record.get I (record ++ [(name, v)])) = record.values ∧
      Record.get I (record ++ [(name, v)]) name = v := by
  constructor
  · rw [← Record.map_get (I := I) nodup]
    refine List.map_congr_left fun n hn ↦ ?_
    obtain ⟨w, hw⟩ : ∃ w, record.lookup n = some w := by
      rw [← Option.isSome_iff_exists, List.lookup_isSome_iff]
      obtain ⟨p, hp, rfl⟩ := List.mem_map.1 hn
      exact ⟨p, hp, beq_self_eq_true _⟩
    rw [Record.get, Record.get, List.lookup_append, hw, Option.some_or]
  · have absent : record.lookup name = none := by
      rw [List.lookup_eq_none_iff]
      intro p hp
      rw [bne_iff_ne]
      rintro rfl
      exact fresh (List.mem_map_of_mem hp)
    rw [Record.get, List.lookup_append, absent, Option.none_or, List.lookup_cons_self]
    rfl

/-- A select that sorts numbered records by their numbers gives those that it keeps, in the
order in which they are numbered. -/
private theorem Select.values_ordered_numbered (hI : I.CountsExactly) {s : Select (Meaning V)}
    {label name : String} {names : List String} {records rows : List (Record V)}
    {source number : Meaning V} {keep : Nat → Bool} (flat : s.IsFlat [label])
    (hc : s.columns ≠ []) (hd : s.distinct = false) (hs : s.source = some source)
    (scopes : source.scopes = records.map fun r ↦ [(label, r)])
    (perm : records.Perm (rows.mapIdx fun k r ↦ r ++ [(name, I.integer (k + 1 : Nat))]))
    (reads : List.Forall₂ (Reads I label) s.exprs names)
    (hnames : ∀ r ∈ rows, r.map (·.1) = names) (nodup : names.Nodup) (fresh : name ∉ names)
    (orderBy : s.orderBy = [.of number true]) (hnumber : number.Reads I label name)
    (keeps_eq : ∀ (scope : Scope V) (k : Nat), number.value (.ofRow scope) = I.integer (k + 1 : Nat) →
      keeps I s.filter scope = keep k) :
    (s.ordered I).map Record.values =
      ((rows.zipIdx.filter fun q ↦ keep q.2).map (·.1)).map Record.values := by
  let scope (r : Record V) : Scope V := [(label, r)]
  let add (q : Record V × Nat) : Record V := q.1 ++ [(name, I.integer (q.2 + 1 : Nat))]
  have numbered : records.Perm (rows.zipIdx.map add) := by
    rwa [List.mapIdx_eq_zipIdx_map] at perm
  have value_scope {m : Meaning V} {n : String} (h : m.Reads I label n) (r : Record V) :
      m.value (.ofRow (scope r)) = r.get I n := by
    rw [h.value]
    simp [Place.ofRow, Scope.get, scope]
  have of_mem (q : Record V × Nat) (hq : q ∈ rows.zipIdx) :
      number.value (.ofRow (scope (add q))) = I.integer (q.2 + 1 : Nat) ∧
        s.rowValues (scope (add q)) = q.1.values := by
    have names_eq : q.1.map (·.1) = names := hnames q.1 (List.fst_mem_of_mem_zipIdx hq)
    obtain ⟨old, new⟩ := get_append (I := I) (v := I.integer (q.2 + 1 : Nat))
      (names_eq ▸ nodup) (names_eq ▸ fresh)
    refine ⟨(value_scope hnumber _).trans new, ?_⟩
    rw [← old, names_eq, Select.rowValues, ← List.forall₂_eq_eq_eq, List.forall₂_map_left_iff,
      List.forall₂_map_right_iff]
    exact reads.imp fun m n h ↦ value_scope h _
  have kept : s.kept I = (records.map scope).filter (keeps I s.filter) := by
    rw [Select.kept, hs, Option.map_some, Option.getD_some, scopes]
  have page : ((rows.zipIdx.map add).map scope).filter (keeps I s.filter) =
      (rows.zipIdx.filter fun q ↦ keep q.2).map (scope ∘ add) := by
    rw [List.map_map, List.filter_map]
    congr 1
    exact List.filter_congr fun q hq ↦ keeps_eq _ _ (of_mem q hq).1
  have le_eq (a b : Scope V) : I.orderLe (keysAt s.orderBy (.ofRow a)) (keysAt s.orderBy (.ofRow b)) =
      I.le (number.value (.ofRow a)) (number.value (.ofRow b)) := by
    rw [orderBy]
    simp [keysAt, SortKey.map, SortKey.of, Interpretation.orderLe, Interpretation.keyLe]
  -- the numbers of the rows that are kept go up, so that sorting by them restores their order
  have strict : ((rows.zipIdx.filter fun q ↦ keep q.2).map (scope ∘ add)).Pairwise fun a b ↦
      I.le (number.value (.ofRow a)) (number.value (.ofRow b)) ∧
        ¬I.le (number.value (.ofRow b)) (number.value (.ofRow a)) := by
    have positions : rows.zipIdx.Pairwise (·.2 < ·.2) := by
      rw [← List.pairwise_map, List.zipIdx_map_snd]
      exact List.pairwise_lt_range'
    rw [List.pairwise_map]
    refine (positions.sublist List.filter_sublist).imp_of_mem fun {q q'} hq hq' hlt ↦ ?_
    rw [Function.comp_apply, Function.comp_apply, (of_mem q (List.mem_of_mem_filter hq)).1,
      (of_mem q' (List.mem_of_mem_filter hq')).1, hI.le, hI.le]
    simp only [decide_eq_true_eq]
    omega
  have sorted : ((s.kept I).mergeSort fun a b ↦
        I.orderLe (keysAt s.orderBy (.ofRow a)) (keysAt s.orderBy (.ofRow b))) =
      (rows.zipIdx.filter fun q ↦ keep q.2).map (scope ∘ add) := by
    simp only [le_eq]
    refine mergeSort_eq_of_perm (fun _ _ _ ↦ hI.le_trans _ _ _)
      (fun a b ↦ by simpa using hI.le_total _ _) ?_ strict
    rw [kept, ← page]
    exact (numbered.map scope).filter _
  rw [flat.values_ordered hc hd, sorted, List.map_map, List.map_map]
  exact List.map_congr_left fun q hq ↦ (of_mem q (List.mem_of_mem_filter hq)).2

/-- A page by row numbers gives the rows of the page in the order in which its source gives
them, whatever order the numbered rows are read in. -/
theorem Compiled.values_ordered_numberedPage (hI : I.CountsExactly) {c c' : Compiled}
    {skip take : Option Scalar} (hc : c.IsNumberable) (ho : c.select.orderBy ≠ []) (named : c.Named)
    (stable : c.IsStable I db) (length : ((c.denoted I db).records I).length < 2 ^ 63)
    (leaving : ∀ e ∈ skip, e.IsCount I) (taking : ∀ e ∈ take, e.IsCount I)
    (h : c.numberedPage skip take d = .ok (c', d')) :
    (∃ labels, (c'.denoted I db).IsFlat labels) ∧
      ((c'.denoted I db).ordered I).map Record.values =
        Relation.pageOf (skip.bind (·.count? I)) (take.bind (·.count? I))
          (((c.denoted I db).records I).map Record.values) := by
  obtain ⟨number, d₁, query, d₂, source, d₃, outer, d₄, row, d₅, low, d₆, high, d₇, filter,
    hn, hq, hs, houter, hr, hlow, hhigh, hf, rfl⟩ := numberedPage_ok h
  have hrow : (row.meaning I db).Reads I (aliasName d₁.aliases) c.numberName := by
    rw [meaning_node hr]
    exact ⟨rfl, fun _ ↦ rfl⟩
  have reads : List.Forall₂ (Reads I (aliasName d₁.aliases))
      (outer.exprs.map (Tree.meaning I db)) c.header.names := reads_selectAll houter
  obtain ⟨filter_local, last, isLast, keeps_eq⟩ := keeps_numberCondition hI hrow.isLocal
    (Tree.allCountTo_scalars hI leaving hlow) (Tree.allCountTo_scalars hI taking hhigh) hf
  have numbered := hc.records_numbered stable hn hq
  rw [← hc.records_eq ho] at numbered
  obtain ⟨exprs, rfl, he⟩ := selectAll_ok houter
  let c' : Compiled := ⟨{
      columns := exprs.map (⟨·, none⟩), source := some source, filter
      orderBy := [SortKey.of row true] }, c.header⟩
  have scopes : (source.meaning I db).scopes =
      (db.arranged (aliasName d₁.aliases) (query.records I db)).map
        fun record ↦ [(aliasName d₁.aliases, record)] := by
    rw [meaning_node hs]
    rfl
  have columns : c'.select.columns ≠ [] := by
    have headed := named.columns_ne_nil hc.columns
    rintro none
    refine headed (List.map_eq_nil_iff.1 (he.symm.trans ?_))
    rw [List.map_eq_nil_iff.1 none, List.map_nil]
  have reads' : List.Forall₂ (Reads I (aliasName d₁.aliases)) (c'.denoted I db).exprs
      c.header.names := by
    rw [exprs_denoted]
    exact reads
  have flat : (c'.denoted I db).IsFlat [aliasName d₁.aliases] := by
    refine ⟨rfl, fun m hm ↦ ?_, fun k hk ↦ ?_, fun m hm ↦ ?_, _, rfl, fun scope hscope ↦ ?_⟩
    · obtain ⟨name, -, h⟩ := exists_of_mem_forall₂ reads'.flip hm
      exact h.isLocal
    · obtain ⟨k', hk', rfl⟩ := List.mem_map.1 hk
      obtain rfl := List.mem_singleton.1 hk'
      exact hrow.isLocal
    · obtain ⟨t, ht, rfl⟩ := Option.mem_map.1 hm
      exact filter_local t ht
    · rw [scopes] at hscope
      obtain ⟨record, -, rfl⟩ := List.mem_map.1 hscope
      exact List.Subset.refl [aliasName d₁.aliases]
  refine ⟨⟨_, flat⟩, ?_⟩
  have rows := Select.values_ordered_numbered hI flat
    (columns_denoted.2 columns) rfl rfl scopes ((db.arranged_perm _ _).trans numbered) reads'
    (fun record hr ↦ named.names_of_mem_records hc.columns rfl hr) named.nodup
    (Header.freeName_not_mem _ _) rfl hrow keeps_eq
  exact rows.trans ((congrArg _ (isLast.pageOf_eq length)).trans (Relation.map_pageOf _ _ _ _))

end SqlWright
