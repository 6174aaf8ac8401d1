import SqlWright.Proofs.Command.ItemizedParts

/-!
# Selects as items

Each clause of a select is itemized, so the select is. A limit or an offset is written in one of two
places, at the top of the columns or at the end of the select.
-/

namespace SqlWright
namespace Script

open Writing

variable {α : Type} {w : Script} {n : Node α} {outer : Option String} {u : α → Tree} {s : Select α}


theorem itemizes_orderClause (h : ∀ k ∈ s.orderBy, k.expr ∈ n.children)
    (paging : Option PagingClause) :
    Itemizes w n outer (s.orderBy.map (·.expr)) fun k ↦
      w.orderClause (s.map (partOf u k)) paging := by
  have keyed : Itemizes w n outer (s.orderBy.map (·.expr)) fun k ↦
      w.ordering (s.orderBy.map (·.map (partOf u k))) none := itemizes_ordering h .none
  by_cases ordered : s.orderBy.isEmpty
  · have unordered : s.orderBy.map (·.expr) ⊆ [] := by
      rw [List.isEmpty_iff.1 ordered]
      exact List.nil_subset _
    by_cases fetches : paging = some .offsetFetch
    · exact ((Itemizes.lift_bind (x := w.spelling.offsetOrdering) (f := fun s _ ↦ pure [.text s])
        fun s hs ↦ .text (.offsetOrdering hs)).congr fun k ↦ by
          simp_all [orderClause, Select.map]).mono unordered
    · exact (Itemizes.nil.congr fun k ↦ by simp_all [orderClause, Select.map]).mono unordered
  · exact ((Itemizes.phrase " ORDER BY " rfl).append keyed).congr fun k ↦ by
      simp_all [orderClause, Select.map]

/-- Number of rows that a select leaves out. -/
def skippedRows (s : Select Part) : Writing Chain :=
  match s.offset with
  | some c => c.2 none
  | none => return [.text "0"]

/-- FETCH clause of a select. -/
def fetchClause (s : Select Part) : Writing Chain :=
  match s.limit with
  | some c => return [.text " FETCH NEXT "] ++ (← c.2 none) ++ [.text " ROWS ONLY"]
  | none => return []

theorem pagingClause_offsetFetch (s : Select Part) : pagingClause s (some .offsetFetch) =
    Writing.concat [pure [.text " OFFSET "], skippedRows s, pure [.text " ROWS"],
      fetchClause s] := by
  cases ho : s.offset <;> cases hl : s.limit <;>
    simp [pagingClause, skippedRows, fetchClause, ho, hl, Writing.concat]

theorem itemizes_skippedRows (h : ∀ a ∈ s.offset, a ∈ n.children) :
    Itemizes w n outer s.offset.toList fun k ↦ skippedRows (s.map (partOf u k)) := by
  cases ho : s.offset with
  | none => exact (Itemizes.phrase "0" rfl).congr fun k ↦ by simp [skippedRows, Select.map, ho]
  | some a =>
    exact (Itemizes.part (h a ho) .none).congr fun k ↦ by
      simp [skippedRows, Select.map, partOf, ho]

theorem itemizes_fetchClause (h : ∀ a ∈ s.limit, a ∈ n.children) :
    Itemizes w n outer s.limit.toList fun k ↦ fetchClause (s.map (partOf u k)) := by
  cases hl : s.limit with
  | none => exact Itemizes.nil.congr fun k ↦ by simp [fetchClause, Select.map, hl]
  | some a =>
    exact ((Itemizes.phrase " FETCH NEXT " rfl).cons <| (Itemizes.part (h a hl) .none).cons
      (Itemizes.phrase " ROWS ONLY" rfl).single).congr fun k ↦ by
        simp [fetchClause, Select.map, partOf, hl, Writing.concat]

/-- Numbers of rows that are written at the end of a select. -/
def endLimits (s : Select α) : Option PagingClause → List α
  | some .limitOffset | some .offsetFetch => s.limit.toList ++ s.offset.toList
  | _ => []

/-- Numbers of rows that are written in front of the columns of a select. -/
def topLimits (s : Select α) (paging : Option PagingClause) : List α :=
  if paging = some .top then s.limit.toList else []

/-- All limits of a select are written, at its end or in front of its columns. -/
theorem limits_subset {f : α → Part} {paging : Option PagingClause}
    (h : w.paging? (s.map f) = .ok paging) :
    s.limit.toList ++ s.offset.toList ⊆ topLimits s paging ++ endLimits s paging := by
  unfold paging? at h
  split at h
  next paged =>
    cases hp : w.spelling.paging with
    | error e => simp [hp, bind, Except.bind] at h
    | ok p =>
      simp only [hp] at h
      cases p with
      | limitOffset | offsetFetch =>
        cases h
        exact List.subset_append_right _ _
      | unsupported => cases h
      | top =>
        have none : s.offset = none := by
          cases ho : s.offset with
          | none => rfl
          | some a => simp [Select.map, ho, bind, Except.bind] at h
        have top : some PagingClause.top = paging := by
          simpa [Select.map, none, bind, Except.bind, pure, Except.pure] using h
        simp [← top, topLimits, none]
  next whole =>
    have none : s.limit = none ∧ s.offset = none := by
      simpa [Select.isPaged, Select.map] using whole
    simp [none]

theorem itemizes_pagingClause (limit : ∀ a ∈ s.limit, a ∈ n.children)
    (offset : ∀ a ∈ s.offset, a ∈ n.children) (paging : Option PagingClause) :
    Itemizes w n outer (endLimits s paging) fun k ↦
      pagingClause (s.map (partOf u k)) paging := by
  have limits : Itemizes w n outer s.limit.toList fun k ↦
      clause " LIMIT " (s.limit.map (partOf u k)) none := itemizes_clause " LIMIT " rfl limit .none
  have offsets : Itemizes w n outer s.offset.toList fun k ↦
      clause " OFFSET " (s.offset.map (partOf u k)) none :=
    itemizes_clause " OFFSET " rfl offset .none
  rcases paging with - | - | - | - | -
  · exact .nil
  · exact limits.append offsets
  · simp only [pagingClause_offsetFetch]
    refine ((Itemizes.phrase " OFFSET " rfl).cons <| (itemizes_skippedRows offset).cons <|
      (Itemizes.phrase " ROWS" rfl).cons (itemizes_fetchClause limit).single).mono ?_
    simp [endLimits]
  · exact .nil
  · exact .nil

/-- Whether and how a select is limited does not depend on how its parts are written. -/
theorem paging?_map (f g : α → Part) : w.paging? (s.map f) = w.paging? (s.map g) := by
  simp [paging?, Select.isPaged, Select.map]

/-- The lock of a select depends on its parts only through whether its rows can be locked. -/
theorem lock?_congr {u v : α → Tree} (k k' : Writer α)
    (h : Tree.lockable (.mk 0 ((Node.select s).map u)) =
      Tree.lockable (.mk 0 ((Node.select s).map v))) :
    w.lock? (s.map (partOf u k)) = w.lock? (s.map (partOf v k')) := by
  have looks (u : α → Tree) (k : Writer α) :
      Node.select ((s.map (partOf u k)).map (·.1)) = (Node.select s).map u := by
    change ((Node.select s).map (partOf u k)).map (·.1) = _
    rw [Node.map_map]
    rfl
  simp only [lock?, looks, h]
  rfl

/-- The clause of a lock is one of the spelling. -/
theorem lock_of_lock? {s : Select Part} {clause : LockClause}
    (h : w.lock? s = .ok (some clause)) : ∃ l, w.spelling.lock l = .ok clause := by
  unfold lock? at h
  split at h
  · cases h
  next l _ =>
    cases hl : w.spelling.lock l with
    | error e =>
      rw [hl] at h
      cases h
    | ok c =>
      simp only [hl] at h
      cases c with
      | tableHint s =>
        cases h
        exact ⟨l, hl⟩
      | suffix s =>
        change (if _ then _ else _) = _ at h
        split at h
        · cases h
          exact ⟨l, hl⟩
        · cases h

/-- TOP clause of a select. -/
def topClause (s : Select Part) (paging : Option PagingClause) : Writing Chain :=
  match s.limit with
  | some c =>
    if paging = some .top then do return [.text "TOP ("] ++ (← c.2 none) ++ [.text ") "]
    else return []
  | none => return []

/-- Output columns of a select, or the mark of all columns. -/
def columnList (w : Script) (s : Select Part) : Writing Chain :=
  if s.columns.isEmpty then return [.text "*"]
  else separated ", " (s.columns.map w.outputColumn)

/-- GROUP BY clause of a select. -/
def groupClause (s : Select Part) : Writing Chain :=
  if s.groupBy.isEmpty then return []
  else return [.text " GROUP BY "] ++ (← listed s.groupBy none)

/-- Hint for the tables of a select, its own or that of the select around it. -/
def tableHint (lock : Option LockClause) (inherited : Option String) : Option String :=
  match lock with
  | some (.tableHint text) => some text
  | _ => inherited

/-- Lock clause at the end of a select. -/
def lockSuffix (lock : Option LockClause) : Chain :=
  match lock with
  | some (.suffix text) => [.text text]
  | _ => []

/-- Clauses of a select, one after the other. -/
def clauses (w : Script) (s : Select Part) (paging : Option PagingClause)
    (lock : Option LockClause) (inherited : Option String) : Writing Chain :=
  concat [pure [.text "SELECT "], pure (if s.distinct then [.text "DISTINCT "] else []),
    topClause s paging, w.columnList s, w.source s.source (tableHint lock inherited),
    clause " WHERE " s.filter none, groupClause s, clause " HAVING " s.having none,
    w.orderClause s paging, pagingClause s paging, pure (lockSuffix lock)]

theorem clauses_eq (s : Select Part) (paging : Option PagingClause) (lock : Option LockClause)
    (inherited : Option String) :
    w.clauses s paging lock inherited = (do
      let top ← topClause s paging
      let columns ← w.columnList s
      let source ← w.source s.source (tableHint lock inherited)
      let filter ← clause " WHERE " s.filter none
      let groups ← groupClause s
      let having ← clause " HAVING " s.having none
      let order ← w.orderClause s paging
      let limits ← pagingClause s paging
      return [Piece.text "SELECT "] ++ (if s.distinct then [Piece.text "DISTINCT "] else []) ++
        top ++ columns ++ source ++ filter ++ groups ++ having ++ order ++ limits ++
        lockSuffix lock) := by
  simp [clauses, Writing.concat]

theorem select_eq (s : Select Part) (inherited : Option String) :
    w.select s inherited = (do
      let paging ← w.paging? s
      let lock ← w.lock? s
      w.clauses s paging lock inherited) := by
  simp only [clauses_eq]
  unfold select
  congr 1
  funext paging
  congr 1
  funext lock
  by_cases top : paging = some .top <;> cases hl : s.limit <;> by_cases all : s.columns.isEmpty <;>
    by_cases whole : s.groupBy.isEmpty <;>
    simp only [topClause, columnList, groupClause, top, hl, all, whole, pure_bind, bind_assoc,
      if_true, if_false, Bool.false_eq_true] <;>
    rfl

theorem itemizes_topClause (h : ∀ a ∈ s.limit, a ∈ n.children) (paging : Option PagingClause) :
    Itemizes w n outer (topLimits s paging) fun k ↦ topClause (s.map (partOf u k)) paging := by
  cases hl : s.limit with
  | none =>
    have none : topLimits s paging = [] := by simp [topLimits, hl]
    rw [none]
    exact Itemizes.nil.congr fun k ↦ by simp [topClause, Select.map, hl]
  | some a =>
    by_cases top : paging = some .top
    · have one : topLimits s paging = [a] := by simp [topLimits, hl, top]
      rw [one]
      exact ((Itemizes.phrase "TOP (" rfl).cons <| (Itemizes.part (h a hl) .none).cons
        (Itemizes.phrase ") " rfl).single).congr fun k ↦ by
          simp [topClause, Select.map, partOf, hl, top, Writing.concat]
    · have none : topLimits s paging = [] := if_neg top
      rw [none]
      exact Itemizes.nil.congr fun k ↦ by simp [topClause, Select.map, hl, top]

theorem itemizes_columnList (h : ∀ c ∈ s.columns, c.expr ∈ n.children) :
    Itemizes w n outer s.exprs fun k ↦ w.columnList (s.map (partOf u k)) := by
  by_cases all : s.columns.isEmpty
  · have none : s.exprs = [] := by simpa [Select.exprs] using all
    rw [none]
    exact (Itemizes.phrase "*" rfl).congr fun k ↦ by simp_all [columnList, Select.map]
  · have column (c : OutputColumn α) (hc : c ∈ s.columns) :
        Itemizes w n outer [c.expr] fun k ↦ w.outputColumn (c.map (partOf u k)) :=
      itemizes_outputColumn (h c hc)
    rw [Select.exprs, List.map_eq_flatMap]
    exact (itemizes_separated ", " rfl s.columns column).congr fun k ↦ by
      simp_all [columnList, Select.map, Function.comp_def]

theorem itemizes_groupClause (h : ∀ a ∈ s.groupBy, a ∈ n.children) :
    Itemizes w n outer s.groupBy fun k ↦ groupClause (s.map (partOf u k)) := by
  have groups : Itemizes w n outer s.groupBy fun k ↦ listed (s.groupBy.map (partOf u k)) none :=
    itemizes_listed h .none
  by_cases whole : s.groupBy.isEmpty
  · rw [List.isEmpty_iff.1 whole]
    exact Itemizes.nil.congr fun k ↦ by simp_all [groupClause, Select.map]
  · exact ((Itemizes.phrase " GROUP BY " rfl).append groups).congr fun k ↦ by
      simp_all [groupClause, Select.map]

theorem handsDown_tableHint {lock : Option LockClause}
    (h : ∀ clause ∈ lock, ∃ l, w.spelling.lock l = .ok clause) :
    w.HandsDown outer (tableHint lock outer) := by
  unfold tableHint
  split
  · obtain ⟨l, hl⟩ := h _ rfl
    exact .lock hl
  · exact .same

theorem itemizes_lockSuffix {lock : Option LockClause}
    (h : ∀ clause ∈ lock, ∃ l, w.spelling.lock l = .ok clause) :
    Itemizes w n outer [] fun _ ↦ pure (lockSuffix lock) := by
  unfold lockSuffix
  split
  · obtain ⟨l, hl⟩ := h _ rfl
    exact .text (.lock hl)
  · exact .nil

theorem itemizes_clauses (h : ∀ a ∈ s.children, a ∈ n.children) {paging : Option PagingClause}
    (hp : s.limit.toList ++ s.offset.toList ⊆ topLimits s paging ++ endLimits s paging)
    {lock : Option LockClause} (hl : ∀ clause ∈ lock, ∃ l, w.spelling.lock l = .ok clause) :
    Itemizes w n outer s.children fun k ↦ w.clauses (s.map (partOf u k)) paging lock outer := by
  simp only [Select.children, Select.exprs, List.mem_append, or_imp, forall_and,
    List.forall_mem_map, Option.mem_toList] at h
  obtain ⟨⟨⟨⟨⟨⟨⟨columns, sources⟩, filters⟩, groups⟩, havings⟩, keys⟩, limits⟩, offsets⟩ := h
  have head : Itemizes w n outer [] fun _ ↦
      pure (if s.distinct then [.text "DISTINCT "] else []) := by
    split
    · exact .phrase "DISTINCT " rfl
    · exact .nil
  have top : Itemizes w n outer _ fun k ↦ topClause (s.map (partOf u k)) paging :=
    itemizes_topClause limits paging
  have column : Itemizes w n outer _ fun k ↦ w.columnList (s.map (partOf u k)) :=
    itemizes_columnList columns
  have source : Itemizes w n outer _ fun k ↦
      w.source (s.map (partOf u k)).source (tableHint lock outer) :=
    itemizes_source sources (handsDown_tableHint hl)
  have filter : Itemizes w n outer _ fun k ↦ clause " WHERE " (s.map (partOf u k)).filter none :=
    itemizes_clause " WHERE " rfl filters .none
  have group : Itemizes w n outer _ fun k ↦ groupClause (s.map (partOf u k)) :=
    itemizes_groupClause groups
  have having' : Itemizes w n outer _ fun k ↦ clause " HAVING " (s.map (partOf u k)).having none :=
    itemizes_clause " HAVING " rfl havings .none
  have order : Itemizes w n outer _ fun k ↦ w.orderClause (s.map (partOf u k)) paging :=
    itemizes_orderClause keys paging
  have limit : Itemizes w n outer _ fun k ↦ pagingClause (s.map (partOf u k)) paging :=
    itemizes_pagingClause limits offsets paging
  refine ((Itemizes.phrase "SELECT " rfl).cons <| head.cons <| top.cons <| column.cons <|
    source.cons <| filter.cons <| group.cons <| having'.cons <| order.cons <| limit.cons <|
    (itemizes_lockSuffix hl).single).mono fun a ha ↦ ?_
  have limited := @hp a
  simp only [Select.children, List.mem_append] at ha limited ⊢
  grind

theorem itemizes_select (h : ∀ a ∈ s.children, a ∈ n.children) :
    Itemizes w n outer s.children fun k ↦ w.select (s.map (partOf u k)) outer := by
  let blank : Writer α := fun _ _ ↦ pure []
  exact (Itemizes.lift_bind (x := w.paging? (s.map (partOf u blank))) fun paging hp ↦
    Itemizes.lift_bind (x := w.lock? (s.map (partOf u blank))) fun lock hl ↦
      itemizes_clauses h (limits_subset hp) fun clause mem ↦
        lock_of_lock? (hl.trans (congrArg _ mem))).congr fun k ↦ by
    rw [select_eq, paging?_map (partOf u k) (partOf u blank), lock?_congr k blank rfl]

end Script
end SqlWright
