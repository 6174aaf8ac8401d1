import SqlWright.Proofs.Drafting.Outcome
import SqlWright.Proofs.Paging.Ordering
import SqlWright.Proofs.Relation.Wrapping

/-!
# Orders of projected rows

A projection keeps the order of the rows as far as its columns are still there: of the sort items
of the header the first ones stay, up to one whose column is gone, and each moves to the place that
its column has first. Rows in the order of the source are then, once they are projected, in the
order of the new header (`Compiled.project_ordered`), since equal or not, they are in the order of
the first items alone.
-/

namespace SqlWright

open Draft Drafting Compiled

variable {order : List SortItem} {columns : List Nat}

/-! ### Items that stay -/

/-- Sort items up to the first whose column is gone. -/
def SortItem.keptIn (columns : List Nat) (order : List SortItem) : List SortItem :=
  order.takeWhile (·.column ∈ columns)

/-- Sort item moved to the first place of its column. -/
def SortItem.moveTo (columns : List Nat) (item : SortItem) : SortItem :=
  { item with column := columns.idxOf item.column }

/-- The items that stay are moved to the places of their columns. -/
theorem Compiled.projectedOrder_eq (order : List SortItem) (columns : List Nat) :
    projectedOrder order columns = (SortItem.keptIn columns order).map (.moveTo columns) := by
  induction order with
  | nil => rfl
  | cons item order ih =>
    have found : columns.findIdx? (· == item.column) =
        if item.column ∈ columns then some (columns.idxOf item.column) else none := by
      rw [List.findIdx?_eq_guard_findIdx_lt, ← List.idxOf, Option.guard_def]
      simp only [List.idxOf_lt_length_iff, decide_eq_true_eq]
    rw [projectedOrder, found, SortItem.keptIn]
    by_cases h : item.column ∈ columns
    · rw [if_pos h, List.takeWhile_cons_of_pos (by simpa using h), List.map_cons, ih]
      rfl
    · rw [if_neg h, List.takeWhile_cons_of_neg (by simpa using h), List.map_nil]

namespace SortItem

theorem keptIn_prefix (columns : List Nat) (order : List SortItem) :
    keptIn columns order <+: order := List.takeWhile_prefix _

theorem column_mem_of_mem_keptIn {item : SortItem} (h : item ∈ keptIn columns order) :
    item.column ∈ columns := by
  simpa using List.mem_takeWhile_imp h

/-- No more of the first items have their columns. -/
theorem prefix_keptIn {first : List SortItem} (h : first <+: order)
    (all : ∀ item ∈ first, item.column ∈ columns) : first <+: keptIn columns order := by
  obtain ⟨rest, rfl⟩ := h
  rw [keptIn, List.takeWhile_append_of_pos (by simpa using all)]
  exact List.prefix_append _ _

end SortItem

/-! ### Rows -/

section Rows

variable {V : Type} {I : Interpretation V}

/-- A column of a row is found in the projected row at its first place. -/
theorem Interpretation.at_idxOf {i : Nat} (h : i ∈ columns) (row : List V) :
    I.at (columns.map (I.at row)) (columns.idxOf i) = I.at row i := by
  rw [Interpretation.at, List.getD_eq_getElem?_getD, List.getElem?_map, List.getElem?_idxOf h]
  rfl

namespace Relation

/-- Projected rows have the keys of the rows themselves by the items that stay. -/
theorem keysOf_projected (order : List SortItem) (columns : List Nat) (row : List V) :
    SortItem.keysOf I (projectedOrder order columns) (columns.map (I.at row)) =
      SortItem.keysOf I (SortItem.keptIn columns order) row := by
  rw [projectedOrder_eq, SortItem.keysOf, SortItem.keysOf, List.map_map]
  refine List.map_congr_left fun item hi ↦ ?_
  exact congrArg (SortKey.of · item.ascending)
    (I.at_idxOf (SortItem.column_mem_of_mem_keptIn hi) row)

/-- Rows in an order are in that of its first items. -/
theorem rowLe_of_prefix {first : List SortItem} (h : first <+: order) {a b : List V}
    (le : rowLe I order a b) : rowLe I first a b := by
  obtain ⟨rest, rfl⟩ := h
  unfold rowLe SortItem.keysOf at le ⊢
  rw [List.map_append, List.map_append] at le
  exact Interpretation.orderLe_of_append (by simp) le

/-- Projected rows are in the order of the items that stay. -/
theorem pairwise_projected {rows : List (List V)} (h : rows.Pairwise (rowLe I order · ·)) :
    (rows.map fun row ↦ columns.map (I.at row)).Pairwise
      (rowLe I (projectedOrder order columns) · ·) := by
  rw [List.pairwise_map]
  refine h.imp fun {a b} le ↦ ?_
  have first := rowLe_of_prefix (SortItem.keptIn_prefix columns order) le
  rwa [rowLe, keysOf_projected, keysOf_projected]

end Relation

end Rows

/-! ### Projections -/

namespace Compiled

theorem order_of_project {c c' : Compiled} (h : c.project columns = .ok c') :
    c'.header.order = (SortItem.keptIn columns c.header.order).map (.moveTo columns) := by
  obtain ⟨chosen, -, rfl⟩ := project_ok h
  exact projectedOrder_eq _ _

/-- A projection is made exactly of columns that there are. The items of its order are the longest
front of the items of the source all of whose columns are among those projected, each at the first
place of its column and below their number. Rows in the order of the source are, once they are
projected, in the order of the projection. -/
theorem project_ordered (c : Compiled) (columns : List Nat) :
    ((∃ c', c.project columns = .ok c') ↔
      ∀ i ∈ columns, i < c.select.columns.length ∧ i < c.header.size) ∧
    ∀ c', c.project columns = .ok c' →
      (∃ kept, kept <+: c.header.order ∧ (∀ item ∈ kept, item.column ∈ columns) ∧
        (∀ first, first <+: c.header.order → (∀ item ∈ first, item.column ∈ columns) →
          first <+: kept) ∧
        c'.header.order = kept.map (.moveTo columns)) ∧
      (∀ item ∈ c'.header.order, item.column < columns.length) ∧
      c'.header.size = columns.length ∧
      ∀ {V : Type} (I : Interpretation V) (rows : List (List V)),
        rows.Pairwise (Relation.rowLe I c.header.order · ·) →
          (rows.map fun row ↦ columns.map (I.at row)).Pairwise
            (Relation.rowLe I c'.header.order · ·) := by
  have settled := settles_projected c columns
  refine ⟨?_, fun c' made ↦ ?_⟩
  · constructor
    · rintro ⟨c', made⟩
      exact (settled.ok made).1
    · intro within
      rcases made : c.project columns with e | c'
      · exact absurd within (settled.error made).1
      · exact ⟨c', rfl⟩
  · have moved := order_of_project made
    refine ⟨⟨_, SortItem.keptIn_prefix _ _, fun item ↦ SortItem.column_mem_of_mem_keptIn,
      fun first ↦ SortItem.prefix_keptIn, moved⟩, ?_, (settled.ok made).2.2.1, ?_⟩
    · intro item hi
      rw [moved] at hi
      obtain ⟨before, hb, rfl⟩ := List.mem_map.1 hi
      exact List.idxOf_lt_length_of_mem (SortItem.column_mem_of_mem_keptIn hb)
    · intro V I rows sorted
      rw [moved, ← projectedOrder_eq]
      exact Relation.pairwise_projected sorted

/-- Of three columns, sorted by the second, by the first from the last value on and by the third,
two are projected, the second of them twice. -/
theorem project_ordered_of_threeColumns :
    let column (name : String) : OutputColumn Tree := ⟨.mk 1 (.column none name), none⟩
    let c : Compiled :=
      { select := { columns := [column "a", column "b", column "c"] }
        header :=
          { columns := [⟨"a", .int32⟩, ⟨"b", .int32⟩, ⟨"c", .int32⟩]
            order := [⟨1, true⟩, ⟨0, false⟩, ⟨2, true⟩] } }
    let I := Interpretation.integers fun _ ↦ none
    let rows : List (List (Option Int)) :=
      [[some 5, some 1, some 7], [some 3, some 1, some 0], [none, some 2, some 0]]
    ∃ c', c.project [2, 1, 1] = .ok c' ∧ c'.header.order = [⟨1, true⟩] ∧
      (rows.map fun row ↦ [I.at row 2, I.at row 1, I.at row 1]).Pairwise
        (Relation.rowLe I [⟨1, true⟩] · ·) := by
  intro column c I rows
  obtain ⟨exact, projected⟩ := project_ordered c [2, 1, 1]
  obtain ⟨c', made⟩ := exact.2 (by decide)
  obtain ⟨-, -, -, ordered⟩ := projected c' made
  have order : c'.header.order = [⟨1, true⟩] := order_of_project made
  have sorted := ordered I rows (by decide)
  rw [order] at sorted
  exact ⟨c', made, order, sorted⟩

end Compiled

end SqlWright
