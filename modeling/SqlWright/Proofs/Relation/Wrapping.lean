import SqlWright.Proofs.Relation.Names
import SqlWright.Proofs.Meaning.Merging

/-!
# Orderings of derived tables

A select that becomes a derived table passes its ordering on to the select around it, key by
key, as far as the keys are output columns. If none of these comes after a key that is no
output column, what is passed on are the first keys, and rows in the order of all keys are in
the order of the first ones. Otherwise a later key is passed on without an earlier one.
-/

namespace SqlWright

open Draft Drafting Compiled

/-! ### Orders by the first keys -/

section FirstKeys

variable {V : Type} {I : Interpretation V}

/-- Rows in the order of some keys are in the order of the first of these. -/
theorem Interpretation.orderLe_of_append {a b a' b' : List (SortKey V)} (hl : a.length = b.length)
    (h : I.orderLe (a ++ a') (b ++ b')) : I.orderLe a b := by
  induction a generalizing b with
  | nil => rfl
  | cons x a ih =>
    obtain _ | ⟨y, b⟩ := b
    · rfl
    · simp only [List.cons_append, orderLe, Bool.and_eq_true, Bool.or_eq_true] at h ⊢
      exact ⟨h.1, h.2.imp_right (ih (by simpa using hl))⟩

end FirstKeys

namespace Compiled

/-! ### Keys that are passed on -/

/-- A sort key is an output column. -/
def isOutput (s : Select Tree) (k : SortKey Tree) : Bool := s.exprs.any (·.id == k.expr.id)

/-- Sort keys up to the first that is no output column. -/
def visibleOrder (s : Select Tree) : List (SortKey Tree) := s.orderBy.takeWhile (isOutput s)

/-- After the first sort key that is no output column there is none that is one. -/
def HidesLast (s : Select Tree) : Prop := ∀ k ∈ s.orderBy.dropWhile (isOutput s), ¬isOutput s k

instance (s : Select Tree) : Decidable (HidesLast s) :=
  inferInstanceAs (Decidable (∀ k ∈ s.orderBy.dropWhile (isOutput s), ¬isOutput s k))

/-- A sort key of a select is moved to the column of another one for the output column that it
is. -/
structure Moved (s : Select Tree) (outer : List Tree) (k k' : SortKey Tree) : Prop where
  column : ∃ i : Nat, s.exprs[i]? = some k.expr ∧ outer[i]? = some k'.expr
  ascending : k'.ascending = k.ascending
  nullsFirst : k'.nullsFirst = k.nullsFirst

variable {s : Select Tree} {outer : List Tree} {k k' : SortKey Tree}

/-- Key of the outer select for a sort key, if there is one. -/
def moved? (s : Select Tree) (outer : List Tree) (k : SortKey Tree) : Option (SortKey Tree) := do
  let i ← s.exprs.findIdx? (·.id == k.expr.id)
  let expr ← outer[i]?
  return { k with expr }

theorem outerOrder_eq : outerOrder s outer = s.orderBy.filterMap (moved? s outer) := rfl

/-- A key that is no output column is not passed on. -/
theorem moved?_eq_none (h : ¬isOutput s k) : moved? s outer k = none := by
  have missing : s.exprs.findIdx? (·.id == k.expr.id) = none := by
    rw [List.findIdx?_eq_none_iff]
    intro t ht
    simp only [isOutput, List.any_eq_true, not_exists, not_and] at h
    exact Bool.eq_false_iff.2 (h t ht)
  rw [moved?, missing]
  rfl

/-- A key that is an output column is moved to the column that reads it. -/
theorem exists_moved?_eq {d : Draft} (held : ∀ t ∈ s.exprs, d.Holds t) (hk : d.Holds k.expr)
    (length : outer.length = s.exprs.length) (h : isOutput s k) :
    ∃ k', moved? s outer k = some k' ∧ Moved s outer k k' := by
  obtain ⟨t, ht, same⟩ := List.any_eq_true.1 h
  have found : (s.exprs.findIdx? (·.id == k.expr.id)).isSome := by
    rw [List.findIdx?_isSome, List.any_eq_true]
    exact ⟨t, ht, same⟩
  obtain ⟨i, hi⟩ := Option.isSome_iff_exists.1 found
  obtain ⟨hlt, hid, -⟩ := List.findIdx?_eq_some_iff_getElem.1 hi
  have expr : s.exprs[i] = k.expr :=
    (held _ (List.getElem_mem hlt)).eq_of_id_eq hk (by simpa using hid)
  have within : i < outer.length := length ▸ hlt
  have read : outer[i]? = some outer[i] := List.getElem?_eq_getElem within
  refine ⟨{ k with expr := outer[i] }, ?_, ⟨i, ?_, read⟩, rfl, rfl⟩
  · rw [moved?, hi, Option.bind_eq_bind, Option.bind_some, read]
    rfl
  · rw [List.getElem?_eq_getElem hlt, expr]

/-- The keys that are passed on are those that are output columns, each of them moved. -/
theorem moved_filterMap {d : Draft} (held : ∀ t ∈ s.exprs, d.Holds t)
    {l : List (SortKey Tree)} (keys : ∀ k ∈ l, d.Holds k.expr)
    (length : outer.length = s.exprs.length) :
    List.Forall₂ (Moved s outer) (l.filter (isOutput s)) (l.filterMap (moved? s outer)) := by
  induction l with
  | nil => exact .nil
  | cons k rest ih =>
    have rest := ih fun k' hk' ↦ keys k' (List.mem_cons_of_mem _ hk')
    by_cases h : isOutput s k
    · obtain ⟨k', hk', moved⟩ := exists_moved?_eq held (keys k List.mem_cons_self) length h
      rw [List.filter_cons_of_pos h, List.filterMap_cons_some hk']
      exact .cons moved rest
    · rw [List.filter_cons_of_neg h, List.filterMap_cons_none (moved?_eq_none h)]
      exact rest

/-- The keys that are output columns are the first keys exactly if none comes after a hidden
one. -/
theorem filter_isOutput_eq_iff :
    s.orderBy.filter (isOutput s) = visibleOrder s ↔ HidesLast s := by
  have parts : s.orderBy.filter (isOutput s) =
      visibleOrder s ++ (s.orderBy.dropWhile (isOutput s)).filter (isOutput s) := by
    have visible : (visibleOrder s).filter (isOutput s) = visibleOrder s :=
      List.filter_eq_self.2 fun k hk ↦ List.mem_takeWhile_imp hk
    conv_lhs => rw [← List.takeWhile_append_dropWhile (p := isOutput s) (l := s.orderBy)]
    rw [List.filter_append]
    exact congrArg (· ++ _) visible
  rw [parts, List.append_right_eq_self, List.filter_eq_nil_iff]
  rfl

/-- The keys that are passed on are the first keys, each of them moved, exactly if no output
column comes after a hidden key. -/
theorem moved_visibleOrder_iff {d : Draft} (held : ∀ t ∈ s.exprs, d.Holds t)
    (keys : ∀ k ∈ s.orderBy, d.Holds k.expr) (length : outer.length = s.exprs.length) :
    List.Forall₂ (Moved s outer) (visibleOrder s) (outerOrder s outer) ↔ HidesLast s := by
  have moved := moved_filterMap held keys length
  rw [outerOrder_eq, ← filter_isOutput_eq_iff]
  constructor
  · intro h
    have same : (visibleOrder s).length = (s.orderBy.filter (isOutput s)).length :=
      h.length_eq.trans moved.length_eq.symm
    have first : (visibleOrder s).Sublist (s.orderBy.filter (isOutput s)) := by
      have visible : (visibleOrder s).filter (isOutput s) = visibleOrder s :=
        List.filter_eq_self.2 fun k hk ↦ List.mem_takeWhile_imp hk
      rw [← visible]
      exact (List.takeWhile_sublist _).filter _
    exact (first.eq_of_length same).symm
  · intro h
    rwa [h] at moved

/-! ### Rows in the order of the keys -/

/-- Keys with their values for a row, of which the expressions have values. -/
def keyValues {V : Type} (value : Tree → V) (keys : List (SortKey Tree)) : List (SortKey V) :=
  keys.map (·.map value)

/-- The columns of an outer select have the values of the output columns of a derived table. -/
def ReadsOutputs {V : Type} (inner outer : List Tree) (value read : Tree → V) : Prop :=
  ∀ (i : Nat) (t u : Tree), inner[i]? = some t → outer[i]? = some u → read u = value t

/-- Moved keys have the values of the keys they were moved from, where the columns of the outer
select have those of the output columns. -/
theorem keyValues_moved {V : Type} {value read : Tree → V} {keys keys' : List (SortKey Tree)}
    (reads : ReadsOutputs s.exprs outer value read)
    (h : List.Forall₂ (Moved s outer) keys keys') :
    keyValues read keys' = keyValues value keys := by
  induction h with
  | nil => rfl
  | @cons k k' keys keys' moved _ ih =>
    obtain ⟨i, ht, hu⟩ := moved.column
    have key : k'.map read = k.map value := by
      rw [SortKey.map, SortKey.map, moved.ascending, moved.nullsFirst, reads i _ _ ht hu]
    rw [keyValues, keyValues, List.map_cons, List.map_cons, key]
    exact congrArg _ ih

/-- Rows in the order of all keys are in the order of the first ones once these are moved. -/
theorem orderLe_of_moved {V : Type} {I : Interpretation V} {a b a' b' : Tree → V}
    {keys : List (SortKey Tree)} (ha : ReadsOutputs s.exprs outer a a')
    (hb : ReadsOutputs s.exprs outer b b')
    (h : List.Forall₂ (Moved s outer) (visibleOrder s) keys)
    (le : I.orderLe (keyValues a s.orderBy) (keyValues b s.orderBy)) :
    I.orderLe (keyValues a' keys) (keyValues b' keys) := by
  rw [keyValues_moved ha h, keyValues_moved hb h]
  have parts (value : Tree → V) : keyValues value s.orderBy =
      keyValues value (visibleOrder s) ++ keyValues value (s.orderBy.dropWhile (isOutput s)) := by
    rw [keyValues, keyValues, keyValues, ← List.map_append, visibleOrder,
      List.takeWhile_append_dropWhile]
  rw [parts a, parts b] at le
  refine Interpretation.orderLe_of_append ?_ le
  rw [keyValues, keyValues, List.length_map, List.length_map]

/-! ### Derived tables -/

/-- Every select can be wrapped. -/
theorem exists_wrap (c : Compiled) (d : Draft) : ∃ w d', c.wrap d = .ok (w, d') := by
  have wraps : c.wrap.Decides True fun _ ↦ True :=
    Decides.nextAlias.step fun _ _ ↦ (Decides.node _).step fun _ _ ↦
      (Decides.node _).step fun _ _ ↦ (decides_selectAll _ _ _).step fun _ _ ↦ .pure trivial
  rcases h : c.wrap d with e | ⟨w, d'⟩
  · exact ((wraps d).error h).1 trivial |>.elim
  · exact ⟨w, d', rfl⟩

/-- The outer select has as many columns as the header. -/
theorem length_exprs_of_selectAll {source : Tree} {label : String} {header : Header}
    {s : Select Tree} {d d' : Draft} (h : selectAll source label header d = .ok (s, d')) :
    s.exprs.length = header.size := by
  obtain ⟨exprs, rfl, nodes⟩ := selectAll_ok h
  have length := congrArg List.length nodes
  rw [List.length_map, List.length_map] at length
  rw [Select.exprs, List.map_map, List.length_map, length]
  rfl

section Meaning

variable {V : Type} [DecidableEq V] {I : Interpretation V} {db : Database V} {c : Compiled}
  {d d' : Draft}

/-- The columns around a derived table under the names of a header read its output columns, if
these have the names. -/
theorem Named.readsOutputs (named : c.Named) (hc : c.select.columns ≠ []) {source : Tree}
    {label : String} {outer : Select Tree}
    (h : selectAll source label c.header d = .ok (outer, d')) (p : Place V) :
    ReadsOutputs c.select.exprs outer.exprs (fun t ↦ (t.meaning I db).value p)
      (fun u ↦ (u.meaning I db).value (.ofRow [(label, (c.denoted I db).record p)])) := by
  obtain ⟨exprs, rfl, nodes⟩ := selectAll_ok h
  have columns : (c.denoted I db).columns = c.select.columns.map (·.map (Tree.meaning I db)) := rfl
  have record : (c.denoted I db).record p = (c.denoted I db).columns.map fun k ↦
      ((k.label <|> k.expr.name?).getD "", k.expr.value p) := by
    rw [Select.record, if_neg (by simpa [columns] using hc)]
  have names : ((c.denoted I db).record p).map (·.1) = c.header.names := by
    have given := congrArg (List.map fun o ↦ Option.getD o "") named.names
    rw [List.map_map, List.map_map] at given
    rw [record, columns, List.map_map, List.map_map]
    refine Eq.trans ?_ (given.trans (List.map_id _))
    exact List.map_congr_left fun k _ ↦ congrArg (Option.getD · "") (name?_denoted k)
  have read : c.header.names.map (((c.denoted I db).record p).get I) =
      c.select.exprs.map fun t ↦ (t.meaning I db).value p := by
    rw [← names, Record.map_get (names ▸ named.nodup),
      Select.values_record (columns_denoted.2 hc), exprs_denoted, List.map_map]
    rfl
  intro i t u ht hu
  have value := congrArg (·[i]?) read
  have node := congrArg (·[i]?) nodes
  have hu : exprs[i]? = some u := by simpa [Select.exprs] using hu
  simp only [List.getElem?_map, ht, hu, Option.map_some, Header.names] at value node
  obtain ⟨k, hk, hn⟩ := Option.map_eq_some_iff.1 node.symm
  rw [hk] at value
  have meaning : u.meaning I db = .ofNode I db (.column (some label) k.name) := by
    rw [Tree.meaning_eq, ← hn]
    rfl
  change (u.meaning I db).value _ = _
  rw [meaning]
  change Scope.get I [(label, (c.denoted I db).record p)] label k.name = _
  rw [Scope.get, List.lookup_cons_self]
  exact Option.some.inj value

end Meaning

end Compiled

namespace Relation

variable {server : Server} {strategies : List Strategy} {r : Relation} {c : Compiled}
  {d d' : Draft}

/-- The first sort keys, each moved, are those of the outer select exactly if no output column
comes after a sort key that is none. -/
theorem moved_wrap_iff {w : Compiled} {d'' : Draft} (hd : d.Started)
    (h : r.draft server strategies d = .ok (some c, d')) (hw : c.wrap d' = .ok (w, d'')) :
    List.Forall₂ (Moved c.select w.select.exprs) (visibleOrder c.select) w.select.orderBy ↔
      HidesLast c.select := by
  have held : c.Held d' := (drafted_of_draft h).held hd
  have width : c.HasWidth r.width := ((offers_draft r).some h).2.2
  obtain ⟨query, d₁, source, d₂, outer, hq, hs, ho, rfl⟩ := wrap_ok hw
  have size := length_exprs_of_selectAll ho
  rw [width.header, ← width.exprs] at size
  exact moved_visibleOrder_iff held.exprs held.orderBy size

/-- If no output column comes after a sort key that is none, the rows of a derived table that come
in the order of its select come in that of the select around it. -/
theorem rows_wrap_sorted {V : Type} [DecidableEq V] {I : Interpretation V} {db : Database V}
    {w : Compiled} {d'' : Draft} (hd : d.Started)
    (h : r.draft server strategies d = .ok (some c, d')) (named : c.Named)
    (columns : c.select.columns ≠ []) (hw : c.wrap d' = .ok (w, d'')) (last : HidesLast c.select)
    {rows : List (Place V)}
    (sorted : rows.Pairwise fun p q ↦ I.orderLe (Meaning.keysAt (c.denoted I db).orderBy p)
      (Meaning.keysAt (c.denoted I db).orderBy q)) :
    (rows.map fun p ↦ Place.ofRow [(aliasName d'.aliases, (c.denoted I db).record p)]).Pairwise
      fun p q ↦ I.orderLe (Meaning.keysAt (w.denoted I db).orderBy p)
        (Meaning.keysAt (w.denoted I db).orderBy q) := by
  have moved := (moved_wrap_iff hd h hw).2 last
  have keys (c : Compiled) (p : Place V) : Meaning.keysAt (c.denoted I db).orderBy p =
      keyValues (fun t ↦ (t.meaning I db).value p) c.select.orderBy :=
    List.map_map
  have reads (p : Place V) : ReadsOutputs c.select.exprs w.select.exprs
      (fun t ↦ (t.meaning I db).value p)
      (fun u ↦ (u.meaning I db).value
        (.ofRow [(aliasName d'.aliases, (c.denoted I db).record p)])) := by
    obtain ⟨query, d₁, source, d₂, outer, -, -, ho, rfl⟩ := wrap_ok hw
    exact named.readsOutputs columns ho p
  rw [List.pairwise_map]
  refine sorted.imp fun {p q} le ↦ ?_
  rw [keys, keys] at le ⊢
  exact orderLe_of_moved (reads p) (reads q) moved le

/-- The select around that of a relation reads it as a derived table, which keeps its ordering
exactly if it is paged. The outer select is ordered by the first sort keys, as far as they are
output columns, each moved to the column for it, exactly if no output column comes after a sort
key that is none; then rows in the order of the derived table are in that of the outer select. -/
theorem wrap_orders_iff (hd : d.Started)
    (h : r.draft server strategies d = .ok (some c, d')) :
    ∃ w d'', c.wrap d' = .ok (w, d'') ∧
      (∃ query label, w.select.source.map Tree.node = some (.queryRef query label) ∧
        w.select.exprs.map Tree.node = c.header.columns.map (fun k ↦ .column (some label) k.name) ∧
        query.node = .select
          { c.select with orderBy := if c.select.isPaged then c.select.orderBy else [] }) ∧
      (List.Forall₂ (Moved c.select w.select.exprs) (visibleOrder c.select) w.select.orderBy ↔
        HidesLast c.select) ∧
      (HidesLast c.select → ∀ {V ρ : Type} (I : Interpretation V) (value read : ρ → Tree → V)
        (rows : List ρ),
        (∀ p, ReadsOutputs c.select.exprs w.select.exprs (value p) (read p)) →
        rows.Pairwise (fun p q ↦ I.orderLe (keyValues (value p) c.select.orderBy)
          (keyValues (value q) c.select.orderBy)) →
        rows.Pairwise (fun p q ↦ I.orderLe (keyValues (read p) w.select.orderBy)
          (keyValues (read q) w.select.orderBy))) := by
  obtain ⟨w, d'', hw⟩ := exists_wrap c d'
  have passed := moved_wrap_iff hd h hw
  obtain ⟨query, d₁, source, d₂, outer, hq, hs, ho, rfl⟩ := wrap_ok hw
  refine ⟨_, _, hw, ⟨query, aliasName d'.aliases, ?_, ?_, ?_⟩, passed,
    fun last V ρ I value read rows reads ↦ ?_⟩
  · obtain ⟨exprs, rfl, -⟩ := selectAll_ok ho
    obtain ⟨rfl, -⟩ := node_ok.1 hs
    rfl
  · obtain ⟨exprs, rfl, nodes⟩ := selectAll_ok ho
    refine Eq.trans ?_ nodes
    simp [Select.exprs]
  · obtain ⟨rfl, -⟩ := node_ok.1 hq
    rw [node_made, derived]
    cases c.select.isPaged <;> rfl
  · exact List.Pairwise.imp fun le ↦ orderLe_of_moved (reads _) (reads _) (passed.2 last) le

/-- The first row of a table of two columns sorted by both, of which some columns are kept. -/
def firstSorted (columns : List Nat) : Relation :=
  take (project (sort (table ⟨none, "t", [⟨"a", .int32, false⟩, ⟨"b", .int32, false⟩], [0]⟩)
    [⟨0, true⟩, ⟨1, true⟩]) columns) (.constant (.integer 1))

/-- Where the first of two sort keys is kept, the outer select is ordered by it. -/
theorem wrap_orders_iff_of_firstSorted :
    ({} : Draft).Started ∧ ∃ c d w d',
      (firstSorted [0]).draft (.capabilities .postgreSql ⟨9, 0⟩) Strategy.standard {} =
        .ok (some c, d) ∧
      c.wrap d = .ok (w, d') ∧ (visibleOrder c.select).length = 1 ∧
      List.Forall₂ (Moved c.select w.select.exprs) (visibleOrder c.select) w.select.orderBy := by
  obtain ⟨c, d, hc, one, last⟩ : ∃ c d, (firstSorted [0]).draft (.capabilities .postgreSql ⟨9, 0⟩)
      Strategy.standard {} = .ok (some c, d) ∧ (visibleOrder c.select).length = 1 ∧
      HidesLast c.select := ⟨_, _, rfl, by decide, by decide⟩
  obtain ⟨w, d', hw, -, passed, -⟩ := wrap_orders_iff started_empty hc
  exact ⟨started_empty, c, d, w, d', hc, hw, one, passed.2 last⟩

/-- Values of the columns `a` and `b` of a row, whatever they are read from. -/
def valueOf (a b : Int) (t : Tree) : Option Int :=
  match t.node with
  | .column _ name => if name = "a" then some a else some b
  | _ => none

/-- Where only the second of two sort keys is kept, none of them is to order the outer select,
but it is ordered by the second one: of the rows `1, 2` and `2, 1`, which come in this order,
the second comes first. -/
theorem wrap_orders_by_later_key :
    ∃ c d w d', (firstSorted [1]).draft (.capabilities .postgreSql ⟨9, 0⟩) Strategy.standard {} =
        .ok (some c, d) ∧
      c.wrap d = .ok (w, d') ∧ visibleOrder c.select = [] ∧ w.select.orderBy.length = 1 ∧
      (∀ a b, ReadsOutputs c.select.exprs w.select.exprs (valueOf a b) (valueOf a b)) ∧
      (Interpretation.integers fun _ ↦ none).orderLe (keyValues (valueOf 1 2) c.select.orderBy)
        (keyValues (valueOf 2 1) c.select.orderBy) = true ∧
      (Interpretation.integers fun _ ↦ none).orderLe (keyValues (valueOf 1 2) w.select.orderBy)
        (keyValues (valueOf 2 1) w.select.orderBy) = false := by
  refine ⟨_, _, _, _, rfl, rfl, rfl, rfl, fun a b i t u ht hu ↦ ?_, by decide, by decide⟩
  cases i with
  | zero =>
    cases ht
    cases hu
    rfl
  | succ i => cases ht

end Relation

end SqlWright
