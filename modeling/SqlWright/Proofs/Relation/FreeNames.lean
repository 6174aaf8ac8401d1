import Mathlib
import SqlWright.Relation.Header

/-!
# Free names

A column that joins a header keeps its name if it is free, and else gets the least number that
makes it free. The search for the number goes through the numbers one after the other and ends,
since of one candidate more than there are names one is free. So the names of a header differ,
however it is made.
-/

namespace SqlWright

namespace Header

variable {h : Header} {taken : List String} {name base : String}

/-! ### Numbers -/

theorem numbered_injective (base : String) : Function.Injective (numbered base) := by
  intro i j h
  rw [numbered, numbered, String.append_right_inj] at h
  have := Nat.repr_injective h
  omega

theorem numbered_ne (base : String) (i : Nat) : numbered base i ≠ base := by
  intro h
  simp [numbered] at h

/-- A taken name and its numbered forms are one name more than are taken, if there are as many forms
as names. -/
theorem exists_numbered_not_mem (h : base ∈ taken) :
    ∃ i < taken.length, numbered base i ∉ taken := by
  by_contra! all
  have candidates : (base :: (List.range taken.length).map (numbered base)).Nodup := by
    refine (List.nodup_range.map (numbered_injective base)).cons fun mem ↦ ?_
    obtain ⟨i, -, same⟩ := List.mem_map.1 mem
    exact numbered_ne base i same
  have known : base :: (List.range taken.length).map (numbered base) ⊆ taken := by
    refine List.cons_subset.2 ⟨h, fun c hc ↦ ?_⟩
    obtain ⟨i, hi, rfl⟩ := List.mem_map.1 hc
    exact all i (List.mem_range.1 hi)
  have le := (candidates.subperm known).length_le
  rw [List.length_cons, List.length_map, List.length_range] at le
  omega

/-- A name that is free stays as it is. -/
theorem freeName_of_not_mem (h : name ∉ taken) : freeName taken name = name := by
  rw [freeName, if_neg (by simpa using h)]

/-- A name that is taken gets the least number that makes it free. -/
theorem exists_freeName_eq (h : name ∈ taken) :
    ∃ i < taken.length, freeName taken name = numbered name i ∧ numbered name i ∉ taken ∧
      ∀ j < i, numbered name j ∈ taken := by
  obtain ⟨k, hk, free⟩ := exists_numbered_not_mem h
  have found : ((List.range (taken.length + 1)).find?
      ((fun candidate ↦ !taken.contains candidate) ∘ numbered name)).isSome := by
    rw [List.find?_isSome]
    exact ⟨k, List.mem_range.2 (by omega), by simpa using free⟩
  obtain ⟨i, hi⟩ := Option.isSome_iff_exists.1 found
  have renamed : freeName taken name = numbered name i := by
    rw [freeName, if_pos (by simpa using h), List.find?_map, hi]
    rfl
  obtain ⟨isFree, -, least⟩ := List.find?_range_eq_some.1 hi
  have least (j : Nat) (hj : j < i) : numbered name j ∈ taken := by simpa using least j hj
  refine ⟨i, ?_, renamed, by simpa using isFree, least⟩
  by_contra! le
  exact free (least k (by omega))

/-- A name that is given to a new column was not taken. -/
theorem freeName_not_mem (taken : List String) (name : String) : freeName taken name ∉ taken := by
  by_cases h : name ∈ taken
  · obtain ⟨i, -, renamed, free, -⟩ := exists_freeName_eq h
    exact renamed ▸ free
  · rwa [freeName_of_not_mem h]

/-! ### The search for a number -/

/-- Next round of the search for a free name: while the name is taken, it is replaced by the base
with the number after it. -/
def renumber? (taken : List String) (base : String) (s : String × Nat) : Option (String × Nat) :=
  if s.1 ∈ taken then some (base ++ s.2.repr, s.2 + 1) else none

/-- Rounds of the search lead from the first name and number to the second. -/
def Renumbers (taken : List String) (base : String) : String × Nat → String × Nat → Prop :=
  Relation.ReflTransGen fun s t ↦ renumber? taken base s = some t

/-- The search goes through the numbers until one makes the name free. -/
theorem renumbers_numbered (h : base ∈ taken) {i : Nat} (before : ∀ j < i, numbered base j ∈ taken) :
    Renumbers taken base (base, 1) (numbered base i, i + 2) := by
  induction i with
  | zero => exact .single (if_pos h)
  | succ i ih =>
    exact .tail (ih fun j hj ↦ before j (by omega)) (if_pos (before i (by omega)))

/-- The search ends with the free name. -/
theorem exists_renumbers (taken : List String) (name : String) :
    ∃ n, Renumbers taken name (name, 1) (freeName taken name, n) ∧
      renumber? taken name (freeName taken name, n) = none := by
  have ended (n : Nat) : renumber? taken name (freeName taken name, n) = none :=
    if_neg (freeName_not_mem taken name)
  by_cases h : name ∈ taken
  · obtain ⟨i, -, renamed, -, before⟩ := exists_freeName_eq h
    exact ⟨i + 2, renamed ▸ renumbers_numbered h before, ended _⟩
  · refine ⟨1, ?_, ended 1⟩
    rw [freeName_of_not_mem h]
    exact .refl

/-! ### Names of headers -/

theorem names_push (h : Header) (c : HeaderColumn) :
    (h.push c).names = h.names ++ [freeName h.names c.name] := by
  rw [names, push, List.map_append]
  rfl

theorem nodup_push (hn : h.names.Nodup) (c : HeaderColumn) : (h.push c).names.Nodup := by
  rw [names_push, List.nodup_append]
  refine ⟨hn, List.nodup_singleton _, fun a ha b hb ↦ ?_⟩
  rw [List.mem_singleton.1 hb]
  exact fun e ↦ freeName_not_mem h.names c.name (e ▸ ha)

theorem nodup_ofColumns (columns : List HeaderColumn) : (ofColumns columns).names.Nodup := by
  have grown (h : Header) (hn : h.names.Nodup) : (columns.foldl push h).names.Nodup := by
    induction columns generalizing h with
    | nil => exact hn
    | cons c columns ih => exact ih _ (nodup_push hn c)
  exact grown {} List.nodup_nil

/-- Different names stay as they are. -/
theorem names_ofColumns {columns : List HeaderColumn} (hn : (columns.map (·.name)).Nodup) :
    (ofColumns columns).names = columns.map (·.name) := by
  have grown (h : Header) (hn : (h.names ++ columns.map (·.name)).Nodup) :
      (columns.foldl push h).names = h.names ++ columns.map (·.name) := by
    clear * - hn
    induction columns generalizing h with
    | nil => simp
    | cons c columns ih =>
      have free : c.name ∉ h.names := by
        rw [List.map_cons, List.nodup_append] at hn
        exact fun hc ↦ hn.2.2 _ hc _ List.mem_cons_self rfl
      have names : (h.push c).names ++ columns.map (·.name) =
          h.names ++ (c :: columns).map (·.name) := by
        rw [names_push, freeName_of_not_mem free, List.append_assoc]
        rfl
      rw [List.foldl_cons, ih (h.push c) (names ▸ hn), names]
  exact grown {} hn

theorem names_withOrder (h : Header) (order : List SortItem) : (h.withOrder order).names = h.names :=
  rfl

/-- The header is made by its operations, in any sequence. -/
inductive IsMade : Header → Prop
  | ofColumns (columns : List HeaderColumn) : IsMade (ofColumns columns)
  | push {h : Header} (made : h.IsMade) (c : HeaderColumn) : IsMade (h.push c)
  | withOrder {h : Header} (made : h.IsMade) (order : List SortItem) : IsMade (h.withOrder order)

theorem IsMade.nodup (made : h.IsMade) : h.names.Nodup := by
  induction made with
  | ofColumns columns => exact nodup_ofColumns columns
  | push _ c ih => exact nodup_push ih c
  | withOrder _ order ih => exact ih

/-- The names of a header differ, and so they do when a column joins it. The column comes last and
all else stays as it is. Its name is found in finitely many rounds: it is the given one if that is
free, and else that with the least positive number that makes it free, which is at most the number
of columns. -/
theorem push_renames (made : h.IsMade) (c : HeaderColumn) :
    h.names.Nodup ∧ (h.push c).names.Nodup ∧
      (h.push c).columns = h.columns ++ [{ c with name := h.pushedName c }] ∧
      (h.push c).order = h.order ∧
      (∃ n, Renumbers h.names c.name (c.name, 1) (h.pushedName c, n) ∧
        renumber? h.names c.name (h.pushedName c, n) = none) ∧
      (c.name ∉ h.names → h.pushedName c = c.name) ∧
      (c.name ∈ h.names → ∃ n, 0 < n ∧ n ≤ h.size ∧ h.pushedName c = c.name ++ n.repr ∧
        c.name ++ n.repr ∉ h.names ∧ ∀ m, 0 < m → m < n → c.name ++ m.repr ∈ h.names) := by
  refine ⟨made.nodup, nodup_push made.nodup c, rfl, rfl, exists_renumbers h.names c.name,
    freeName_of_not_mem, fun taken ↦ ?_⟩
  obtain ⟨i, hi, renamed, free, before⟩ := exists_freeName_eq taken
  rw [names, List.length_map] at hi
  refine ⟨i + 1, i.succ_pos, hi, renamed, free, fun m pos lt ↦ ?_⟩
  obtain ⟨j, rfl⟩ := Nat.exists_eq_add_one.2 pos
  exact before j (by omega)

/-- Header to which a column `id` is added three times, the last time after one named `id11`. -/
def numberedIds : Header :=
  (ofColumns (["id", "id", "id11"].map (⟨·, .int32⟩))).push ⟨"id", .int32⟩

/-- The name `id1` with the number one is the name of another column. -/
theorem push_renames_of_numberedIds : numberedIds.IsMade ∧
    numberedIds.names = ["id", "id1", "id11", "id2"] ∧ "id1" ∈ numberedIds.names ∧
      numberedIds.pushedName ⟨"id1", .int64⟩ = "id12" ∧
      (numberedIds.push ⟨"id1", .int64⟩).names.Nodup ∧
      ∃ n, 0 < n ∧ n ≤ 4 ∧ numberedIds.pushedName ⟨"id1", .int64⟩ = "id1" ++ n.repr ∧
        "id1" ++ n.repr ∉ numberedIds.names ∧
        ∀ m, 0 < m → m < n → "id1" ++ m.repr ∈ numberedIds.names := by
  have made : numberedIds.IsMade := .push (.ofColumns _) _
  have taken : "id1" ∈ numberedIds.names := by decide
  obtain ⟨-, nodup, -, -, -, -, least⟩ := push_renames made ⟨"id1", .int64⟩
  exact ⟨made, by decide, taken, by decide, nodup, least taken⟩

end Header

end SqlWright
