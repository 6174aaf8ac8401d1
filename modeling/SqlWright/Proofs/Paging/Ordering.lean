import SqlWright.Proofs.Meaning.Preservation
import SqlWright.Proofs.Meaning.Sorting

/-!
# Rows in the order of a header

A flat select gives its rows sorted by its keys. If the keys are those of its header, these are
the rows in the order of the header. Where no two rows are beside each other in that order, sorting
them again restores it, in whatever order they are read from a derived table.
-/

namespace SqlWright

variable {V : Type} {I : Interpretation V}

open Draft Drafting Meaning Compiled

/-! ### Sorted rows -/

/-- Of a list that is sorted strictly, every rearrangement is sorted to that list. -/
theorem mergeSort_eq_of_perm {α : Type} {le : α → α → Bool} {l l' : List α}
    (trans : ∀ a b c, le a b → le b c → le a c) (total : ∀ a b, le a b || le b a)
    (h : l.Perm l') (strict : l'.Pairwise fun a b ↦ le a b ∧ ¬le b a) : l.mergeSort le = l' := by
  have : Std.Symm fun a b ↦ ¬(le a b ∧ le b a) := ⟨fun a b hab hba ↦ hab hba.symm⟩
  have distinct : l'.Pairwise fun a b ↦ ¬(le a b ∧ le b a) := by
    exact strict.imp fun hab hba ↦ hab.2 hba.2
  refine List.Perm.eq_of_pairwise (fun a b ha hb hab hba ↦ ?_)
    (List.pairwise_mergeSort trans total l) (strict.imp And.left) ((l.mergeSort_perm le).trans h)
  by_contra hne
  have ha' : a ∈ l' := h.subset ((l.mergeSort_perm le).subset ha)
  exact distinct.forall ha' hb hne ⟨hab, hba⟩

namespace Relation

variable {rows : List (List V)}

/-- Whether one row comes before another or beside it. -/
def rowLe (I : Interpretation V) (order : List SortItem) (a b : List V) : Bool :=
  I.orderLe (SortItem.keysOf I order a) (SortItem.keysOf I order b)

/-- Whether one row comes before another and not beside it. -/
def rowLt (I : Interpretation V) (order : List SortItem) (a b : List V) : Prop :=
  rowLe I order a b ∧ ¬rowLe I order b a

theorem rowLe_cons (item : SortItem) (order : List SortItem) (a b : List V) :
    rowLe I (item :: order) a b =
      (I.keyLe (.of (I.at a item.column) item.ascending) (.of (I.at b item.column) item.ascending) &&
        (!I.keyLe (.of (I.at b item.column) item.ascending) (.of (I.at a item.column) item.ascending) ||
          rowLe I order a b)) := rfl

private theorem keyLe_of (a b : V) (ascending : Bool) :
    I.keyLe (.of a ascending) (.of b ascending) = if ascending then I.le a b else I.le b a := rfl

theorem rowLe_trans (trans : ∀ a b c, I.le a b → I.le b c → I.le a c) (order : List SortItem)
    (a b c : List V) (hab : rowLe I order a b) (hbc : rowLe I order b c) : rowLe I order a c := by
  have key (ascending : Bool) (x y z : V) (hxy : I.keyLe (.of x ascending) (.of y ascending))
      (hyz : I.keyLe (.of y ascending) (.of z ascending)) :
      I.keyLe (.of x ascending) (.of z ascending) := by
    cases ascending with
    | true => exact trans x y z hxy hyz
    | false => exact trans z y x hyz hxy
  induction order with
  | nil => rfl
  | cons item order ih =>
    simp only [rowLe_cons, Bool.and_eq_true, Bool.or_eq_true, Bool.not_eq_true'] at hab hbc ⊢
    refine ⟨key _ _ _ _ hab.1 hbc.1, ?_⟩
    -- if the last row comes before the first one by this key, all three agree in it
    by_cases hca : I.keyLe (.of (I.at c item.column) item.ascending)
        (.of (I.at a item.column) item.ascending)
    · have hba := key _ _ _ _ hbc.1 hca
      have hcb := key _ _ _ _ hca hab.1
      exact .inr (ih (hab.2.resolve_left (by simp [hba])) (hbc.2.resolve_left (by simp [hcb])))
    · exact .inl (by simpa using hca)

theorem rowLe_total (total : ∀ a b, I.le a b ∨ I.le b a) (order : List SortItem) (a b : List V) :
    rowLe I order a b ∨ rowLe I order b a := by
  induction order with
  | nil => exact .inl rfl
  | cons item order ih =>
    have key : I.keyLe (.of (I.at a item.column) item.ascending)
          (.of (I.at b item.column) item.ascending) ∨
        I.keyLe (.of (I.at b item.column) item.ascending)
          (.of (I.at a item.column) item.ascending) := by
      rw [keyLe_of, keyLe_of]
      split
      · exact total _ _
      · exact total _ _
    simp only [rowLe_cons, Bool.and_eq_true, Bool.or_eq_true, Bool.not_eq_true']
    cases hab : I.keyLe (.of (I.at a item.column) item.ascending)
        (.of (I.at b item.column) item.ascending) <;>
      cases hba : I.keyLe (.of (I.at b item.column) item.ascending)
        (.of (I.at a item.column) item.ascending) <;> simp_all

/-- Sorted rows come in their order. -/
theorem pairwise_sorted (trans : ∀ a b c, I.le a b → I.le b c → I.le a c)
    (total : ∀ a b, I.le a b ∨ I.le b a) (order : List SortItem) (rows : List (List V)) :
    (sorted I order rows).Pairwise (rowLe I order · ·) :=
  List.pairwise_mergeSort (rowLe_trans trans order)
    (fun a b ↦ by simpa using rowLe_total total order a b) rows

/-- Rows of which no two are beside each other in an order come strictly in it when sorted. -/
theorem pairwise_sorted_of_unique (trans : ∀ a b c, I.le a b → I.le b c → I.le a c)
    (total : ∀ a b, I.le a b ∨ I.le b a) {order : List SortItem}
    (unique : rows.Pairwise fun a b ↦ ¬(rowLe I order a b ∧ rowLe I order b a)) :
    (sorted I order rows).Pairwise (rowLt I order) := by
  have apart : (sorted I order rows).Pairwise fun a b ↦ ¬(rowLe I order a b ∧ rowLe I order b a) :=
    unique.perm (List.mergeSort_perm rows _).symm fun hab hba ↦ hab hba.symm
  refine ((pairwise_sorted trans total order rows).and apart).imp fun ⟨before, beside⟩ ↦ ?_
  exact ⟨before, fun after ↦ beside ⟨before, after⟩⟩

/-- Rows of which no two are beside each other in an order are sorted in one way, however they
are arranged. -/
theorem sorted_eq_of_perm (trans : ∀ a b c, I.le a b → I.le b c → I.le a c)
    (total : ∀ a b, I.le a b ∨ I.le b a) {order : List SortItem} {rows' : List (List V)}
    (h : rows.Perm rows') (strict : rows'.Pairwise (rowLt I order)) :
    sorted I order rows = rows' := by
  refine mergeSort_eq_of_perm (rowLe_trans trans order) (fun a b ↦ ?_) h strict
  rw [Bool.or_eq_true]
  exact rowLe_total total order a b

/-! ### Pages of rows -/

theorem map_pageOf {W : Type} (f : List V → List W) (leaving taking : Option Nat)
    (rows : List (List V)) :
    (pageOf leaving taking rows).map f = pageOf leaving taking (rows.map f) := by
  unfold pageOf
  cases taking with
  | none => exact List.map_drop
  | some n => exact List.map_take.trans (congrArg _ List.map_drop)

theorem pageOf_sublist (leaving taking : Option Nat) (rows : List (List V)) :
    (pageOf leaving taking rows).Sublist rows := by
  unfold pageOf
  cases taking with
  | none => exact List.drop_sublist _ _
  | some n => exact (List.take_sublist _ _).trans (List.drop_sublist _ _)

end Relation

/-! ### Selects without groups -/

variable [DecidableEq V] {db : Database V} {labels : List String}

/-- A flat select sorts the rows that it keeps. -/
theorem Select.IsFlat.values_ordered {s : Select (Meaning V)} (h : s.IsFlat labels)
    (hc : s.columns ≠ []) (hd : s.distinct = false) :
    (s.ordered I).map Record.values = ((s.kept I).mergeSort fun a b ↦
      I.orderLe (keysAt s.orderBy (.ofRow a)) (keysAt s.orderBy (.ofRow b))).map s.rowValues := by
  have rows : (s.places I).map (·.row) = s.kept I := by
    have points : s.points I = (s.kept I).map (⟨·, []⟩) := by
      rw [Select.points, h.hasGroups, if_neg Bool.false_ne_true]
    rw [Select.places, points]
    refine List.ext_getElem? fun i ↦ ?_
    simp only [List.getElem?_map, List.getElem?_mapIdx, Option.map_map]
    cases (s.kept I)[i]? with
    | none => rfl
    | some row => rfl
  have keys (p : Place V) : keysAt s.orderBy p = keysAt s.orderBy (.ofRow p.row) := by
    refine List.map_congr_left fun k hk ↦ ?_
    rw [SortKey.map, SortKey.map, (h.orderBy k hk).value_row]
  have sorted : (s.sortedPlaces I s.orderBy).map (·.row) = (s.kept I).mergeSort fun a b ↦
      I.orderLe (keysAt s.orderBy (.ofRow a)) (keysAt s.orderBy (.ofRow b)) := by
    rw [Select.sortedPlaces, ← rows, List.map_mergeSort]
    intro p _ q _
    rw [keys p, keys q]
  rw [Select.ordered_eq hd, ← sorted, List.map_map, List.map_map]
  refine List.map_congr_left fun p _ ↦ ?_
  rw [Function.comp_apply, Select.values_record hc]
  exact List.map_congr_left fun m hm ↦ (h.exprs m hm).value_row p

namespace Compiled

variable {c c' : Compiled} {d d' : Draft}

/-- Sort keys of a header are keys of the values that are put out. -/
private theorem keysAt_headerOrder {exprs : List Tree} {header : Header}
    (hin : ∀ item ∈ header.order, item.column < exprs.length) (p : Place V) :
    keysAt ((headerOrder exprs header).map (·.map (Tree.meaning I db))) p =
      SortItem.keysOf I header.order (exprs.map fun t ↦ (t.meaning I db).value p) := by
  obtain ⟨columns, order⟩ := header
  unfold headerOrder SortItem.keysOf
  induction order with
  | nil => rfl
  | cons item order ih =>
    rw [List.forall_mem_cons] at hin
    obtain ⟨t, ht⟩ : ∃ t, exprs[item.column]? = some t := ⟨_, List.getElem?_eq_getElem hin.1⟩
    rw [List.filterMap_cons, ht, Option.map_some, List.map_cons]
    have value : (t.meaning I db).value p =
        I.at (exprs.map fun u ↦ (u.meaning I db).value p) item.column := (computes_at ht).value p
    exact congrArg₂ List.cons (congrArg (SortKey.of · item.ascending) value) (ih hin.2)

/-- A flat select that sorts by its header gives its rows in the order of the header. -/
theorem values_ordered_header (flat : (c.denoted I db).IsFlat labels) (hc : c.select.columns ≠ [])
    (hd : c.select.distinct = false) (ho : c.select.orderBy = headerOrder c.select.exprs c.header)
    (hin : ∀ item ∈ c.header.order, item.column < c.select.exprs.length) :
    ((c.denoted I db).ordered I).map Record.values =
      Relation.sorted I c.header.order ((c.denoted I db).outputs I) := by
  have keys (row : Scope V) : keysAt (c.denoted I db).orderBy (.ofRow row) =
      SortItem.keysOf I c.header.order ((c.denoted I db).rowValues row) := by
    have orderBy : (c.denoted I db).orderBy =
        (headerOrder c.select.exprs c.header).map (·.map (Tree.meaning I db)) := congrArg _ ho
    rw [orderBy, keysAt_headerOrder hin, Select.rowValues, values_denoted]
  rw [flat.values_ordered (columns_denoted.2 hc) hd, flat.outputs (columns_denoted.2 hc),
    Relation.sorted]
  refine List.map_mergeSort fun a _ b _ ↦ ?_
  rw [keys, keys]

end Compiled

end SqlWright
