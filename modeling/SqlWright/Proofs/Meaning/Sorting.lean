import SqlWright.Proofs.Meaning.Outputs

/-!
# Sorted places

A select without DISTINCT gives its records in the order of its keys at the places of the
select. `map_rowNumber_sortedPlaces` says that in the order of some keys the row numbers over
these keys count from one, so that the numbered rows are the sorted rows with their positions.
-/

namespace SqlWright

variable {V : Type} [DecidableEq V] {I : Interpretation V}

open Meaning

namespace Select

variable {s s' : Select (Meaning V)} {keys : List (SortKey (Meaning V))}

/-- Places of a select in the order of some keys. -/
def sortedPlaces (I : Interpretation V) (s : Select (Meaning V))
    (keys : List (SortKey (Meaning V))) : List (Place V) :=
  (s.places I).mergeSort fun p q ↦ I.orderLe (keysAt keys p) (keysAt keys q)

theorem sortedPlaces_perm : (s.sortedPlaces I keys).Perm (s.places I) := List.mergeSort_perm _ _

/-- Without DISTINCT the records come in the order of the places. -/
theorem ordered_eq (hd : s.distinct = false) :
    s.ordered I = (s.sortedPlaces I s.orderBy).map s.record := by
  let entry (p : Place V) : Record V × List (SortKey V) := (s.record p, keysAt s.orderBy p)
  have sorted : ((s.places I).map entry).mergeSort (fun a b ↦ I.orderLe a.2 b.2) =
      (s.sortedPlaces I s.orderBy).map entry := by
    rw [sortedPlaces, List.map_mergeSort]
    exact fun _ _ _ _ ↦ rfl
  rw [ordered, entries, hd, if_neg Bool.false_ne_true, sorted, List.map_map]
  rfl

/-- A limit gives the first records. -/
theorem records_of_limit (ho : s.offset = none) : s.records I =
    match count? I s.limit with
    | some n => (s.ordered I).take n
    | none => s.ordered I := by
  rw [records, ho]
  rfl

/-! ### Row numbers -/

/-- Positions of the points of a select in the order of some keys. -/
private def sortedPositions (I : Interpretation V) (s : Select (Meaning V))
    (keys : List (SortKey (Meaning V))) : List Nat :=
  let keysOf (i : Nat) : List (SortKey V) :=
    ((s.points I)[i]?.map fun q ↦ keysAt keys { q with }).getD []
  (List.range (s.points I).length).mergeSort fun i j ↦ I.orderLe (keysOf i) (keysOf j)

/-- Place of the point at a position. -/
private def placeAt (I : Interpretation V) (s : Select (Meaning V)) (i : Nat) : Place V :=
  { (s.points I)[i]?.getD ⟨[], []⟩ with peers := s.points I, position := i }

private theorem places_eq :
    s.places I = (List.range (s.points I).length).map (s.placeAt I) := by
  refine List.ext_getElem? fun i ↦ ?_
  rw [places, List.getElem?_mapIdx, List.getElem?_map]
  by_cases h : i < (s.points I).length
  · rw [List.getElem?_range h, List.getElem?_eq_getElem h]
    simp [placeAt, List.getElem?_eq_getElem h]
  · rw [List.getElem?_eq_none (not_lt.1 h), List.getElem?_eq_none]
    · rfl
    · simpa using h

private theorem sortedPlaces_eq (stable : ∀ k ∈ keys, k.expr.IsStable) :
    s.sortedPlaces I keys = (s.sortedPositions I keys).map (s.placeAt I) := by
  -- the keys at a place are those at its point, which row numbers are sorted by
  have keysAt_point (i : Nat) (h : i < (s.points I).length) : keysAt keys (s.placeAt I i) =
      ((s.points I)[i]?.map fun q ↦ keysAt keys { q with }).getD [] := by
    rw [List.getElem?_eq_getElem h, Option.map_some, Option.getD_some]
    refine List.map_congr_left fun k hk ↦ ?_
    have same := stable k hk (s.placeAt I i) { (s.points I)[i] with } (by
      simp [placeAt, List.getElem?_eq_getElem h])
    rw [SortKey.map, SortKey.map, same]
  rw [sortedPlaces, places_eq, sortedPositions, List.map_mergeSort]
  intro i hi j hj
  rw [keysAt_point i (List.mem_range.1 hi), keysAt_point j (List.mem_range.1 hj)]

/-- In the order of some keys, the rows are numbered from one. -/
theorem map_rowNumber_sortedPlaces (stable : ∀ k ∈ keys, k.expr.IsStable) :
    (s.sortedPlaces I keys).map (rowNumber I keys) =
      (List.range (s.points I).length).map (· + 1) := by
  have perm : (s.sortedPositions I keys).Perm (List.range (s.points I).length) :=
    List.mergeSort_perm _ _
  have number (i : Nat) :
      rowNumber I keys (s.placeAt I i) = (s.sortedPositions I keys).idxOf i + 1 := rfl
  rw [sortedPlaces_eq stable, List.map_map]
  refine List.ext_getElem (by simp [perm.length_eq]) fun i h h' ↦ ?_
  have nodup : (s.sortedPositions I keys).Nodup := perm.nodup_iff.2 List.nodup_range
  simp only [List.getElem_map, Function.comp_apply, number, nodup.idxOf_getElem,
    List.getElem_range]

end Select

end SqlWright
