import SqlWright.Proofs.Command.NormalChains
import SqlWright.Proofs.Command.Settling

/-!
# How hints pass down

A node that is no select writes its children under the hint that it is written under itself. A
select writes its source under the hint of its lock, or the one it is written under, and all else
under none. So the hints can be decided before anything is written: a node is written under no
hint from children that know theirs.
-/

namespace SqlWright

variable {α β : Type}

/-! ### Links of the FROM clause -/

/-- Select whose links say whether they stand in its FROM clause. -/
def Select.marked (s : Select α) : Select (Bool × α) :=
  { s.map (false, ·) with source := s.source.map (true, ·) }

/-- Node whose links say whether they stand in a FROM clause: the source of a select, the sides of
a join, and the query of a derived table. -/
def Node.marked : Node α → Node (Bool × α)
  | .queryRef query label => .queryRef (true, query) label
  | .join kind left right on => .join kind (true, left) (true, right) (on.map (false, ·))
  | .select s => .select s.marked
  | n => n.map (false, ·)

theorem Select.marked_map (f : α → β) (s : Select α) : s.marked.map (fun p ↦ f p.2) = s.map f := by
  simp [marked, map, SortKey.map, OutputColumn.map, Function.comp_def]

theorem Node.marked_map (f : α → β) (n : Node α) : n.marked.map (fun p ↦ f p.2) = n.map f := by
  cases n with
  | queryRef query label => rfl
  | join kind left right on => simp [marked, map, Function.comp_def]
  | select s => rw [marked, map, s.marked_map, map]
  | _ => simp [marked, map, SortKey.map, Function.comp_def]

/-! ### Children that know their hint -/

namespace Script

variable {w : Script} {u : α → Tree} {k : Writer α} {hint : Option String}

/-- Way to write the children of a node that is given hints before. -/
def given (k : Writer α) (hint : α → Option String) : Writer α := fun a _ ↦ k a (hint a)

theorem listed_given (hint : Option String) (as : List α) :
    listed (as.map (partOf u k)) hint =
      listed (as.map (partOf u (given k fun _ ↦ hint))) none := by
  simp [listed, partOf, given, Function.comp_def]

theorem clause_given (hint : Option String) (text : String) (a? : Option α) :
    clause text (a?.map (partOf u k)) hint =
      clause text (a?.map (partOf u (given k fun _ ↦ hint))) none := by
  cases a? <;> rfl

theorem ordering_given (hint : Option String) (keys : List (SortKey α)) :
    w.ordering (keys.map (·.map (partOf u k))) hint =
      w.ordering (keys.map (·.map (partOf u (given k fun _ ↦ hint)))) none := by
  simp [ordering, SortKey.map, partOf, given, Function.comp_def]

/-- A node that is neither a table nor a select writes all its children under its own hint. -/
theorem node_given {n : Node α} (table : n.kind ≠ .table) (select : n.kind ≠ .select)
    (hint : Option String) :
    w.node (n.map (partOf u k)) hint =
      w.node (n.map (partOf u (given k fun _ ↦ hint))) none := by
  cases n with
  | table | select => contradiction
  | binary op left right => rfl
  | unary op a => cases op <;> rfl
  | function f args =>
    simp only [node, Node.map, List.length_map]
    congr 1
    funext t
    congr 1
    funext i
    cases ha : args[i]? with
    | none => simp [ha]
    | some a => cases t <;> simp [ha, partOf, given, grouped]
  | aggregate kind distinct operand => cases operand <;> rfl
  | case branches otherwise =>
    simp only [node, Node.map, clause_given hint, List.mapM_map]
    rfl
  | row items => simp only [node, Node.map, listed_given hint]
  | insert target columns values =>
    simp only [node, Node.map, listed_given hint]
    rfl
  | dynamicFilter id first others =>
    simp only [node, Node.map, List.mapM_cons, List.mapM_map]
    rfl
  | rowNumber keys =>
    simp only [node, Node.map, rowNumber, ordering_given hint, List.isEmpty_map]
  | join kind left right on | delete left on =>
    simp only [node, Node.map, clause_given hint]
    rfl
  | update target assignments filter =>
    simp only [node, Node.map, clause_given hint, List.map_map]
    rfl
  | _ => rfl

/-- Hint of a child of a select: that of the lock or the inherited one in the FROM clause, and
none elsewhere. -/
def childHint (lock : Option LockClause) (inherited : Option String) (p : Bool × α) :
    Option String :=
  if p.1 then tableHint lock inherited else none

/-- A select whose lock is no suffix is written as one without a lock whose children know their
hints. -/
theorem clauses_given {s : Select α} {lock : Option LockClause} (suffix : lockSuffix lock = [])
    (paging : Option PagingClause) (inherited : Option String) :
    w.clauses (s.map (partOf u k)) paging lock inherited =
      w.clauses (s.marked.map (partOf (fun p ↦ u p.2)
        (given (fun p ↦ k p.2) (childHint lock inherited)))) paging none none := by
  let f : Bool × α → Part := partOf (fun p ↦ u p.2)
    (given (fun p ↦ k p.2) (childHint lock inherited))
  have top : topClause (s.map (partOf u k)) paging = topClause (s.marked.map f) paging := by
    cases hl : s.limit <;> simp [topClause, Select.map, Select.marked, hl]
    rfl
  have columns : w.columnList (s.map (partOf u k)) = w.columnList (s.marked.map f) := by
    simp [columnList, Select.map, Select.marked, OutputColumn.map, outputColumn,
      Function.comp_def]
    rfl
  have source : w.source (s.map (partOf u k)).source (tableHint lock inherited) =
      w.source (s.marked.map f).source (tableHint none none) := by
    cases hs : s.source <;> simp [Script.source, Select.map, Select.marked, hs]
    rfl
  have optional (text : String) (a? : Option α) : clause text (a?.map (partOf u k)) none =
      clause text ((a?.map (false, ·)).map f) none := by
    cases a? <;> rfl
  have filter : clause " WHERE " (s.map (partOf u k)).filter none =
      clause " WHERE " (s.marked.map f).filter none := optional " WHERE " s.filter
  have having' : clause " HAVING " (s.map (partOf u k)).having none =
      clause " HAVING " (s.marked.map f).having none := optional " HAVING " s.having
  have groups : groupClause (s.map (partOf u k)) = groupClause (s.marked.map f) := by
    simp [groupClause, listed, Select.map, Select.marked, Function.comp_def]
    rfl
  have order : w.orderClause (s.map (partOf u k)) paging =
      w.orderClause (s.marked.map f) paging := by
    simp [orderClause, ordering, Select.map, Select.marked, SortKey.map, Function.comp_def]
    rfl
  have limits : pagingClause (s.map (partOf u k)) paging = pagingClause (s.marked.map f) paging := by
    cases hl : s.limit <;> cases ho : s.offset <;> rcases paging with - | - | - | - | - <;>
      simp [pagingClause, Select.map, Select.marked, hl, ho] <;> rfl
  unfold clauses
  rw [top, columns, source, filter, groups, having', order, limits, suffix]
  rfl

end Script

end SqlWright
