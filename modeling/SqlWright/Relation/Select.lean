import SqlWright.Relation.Draft

/-!
# Selects of relations

Each operation on a relation becomes a change of the select that computes its
source. Where the change would not commute with what the select does already, the
select becomes a derived table of a new one.
-/

namespace SqlWright

/-- Select of a relation. Its columns line up with those of the header. -/
structure Compiled where
  select : Select Tree
  header : Header

/-- Operations that some selects cannot take up. -/
inductive Operation where
  | filter
  | project
  | extend
  | aggregate
  | sort
  | distinct
  | skip
  | join
  deriving DecidableEq

namespace Compiled

/-- Output column that gives an expression a name. -/
def outputColumn (expr : Tree) (name : String) : OutputColumn Tree :=
  match expr.node with
  | .column _ own => ⟨expr, if own = name then none else some name⟩
  | _ => ⟨expr, some name⟩

/-- Select of all columns of a row source. -/
def selectAll (source : Tree) (label : String) (header : Header) : Drafting (Select Tree) := do
  let columns ← header.columns.mapM fun c ↦ return ⟨← Draft.column label c.name, none⟩
  return { columns, source := some source }

/-- Select of a stored table. -/
def ofTable (t : Table) : Drafting Compiled := do
  let label ← Draft.nextAlias
  let header := Header.ofTable t
  let source ← Draft.node (.table t.schema t.name (some label))
  return ⟨← selectAll source label header, header⟩

/-- Select of a native query. -/
def ofNative (sql : String) (header : Header) : Drafting Compiled := do
  let label ← Draft.nextAlias
  let source ← Draft.node (.queryRef (← Draft.node (.native sql)) label)
  return ⟨← selectAll source label header, header⟩

/-- Whether a select has to become a derived table before it takes up an operation. -/
def mustWrap (s : Select Tree) : Operation → Bool
  | .filter | .aggregate => s.isPaged || s.distinct || s.isGrouped
  | .project | .extend => s.distinct
  | .sort | .distinct => s.isPaged
  | .skip => s.limit.isSome
  | .join => s.isPaged || s.distinct || s.isGrouped || s.lock.isSome

/-- Sort keys of a select, each moved to the column of the outer select for the output column
that it stands in; keys that are no output columns are left out. -/
def outerOrder (inner : Select Tree) (outer : List Tree) : List (SortKey Tree) :=
  inner.orderBy.filterMap fun k ↦ do
    let i ← inner.exprs.findIdx? (·.id == k.expr.id)
    let expr ← outer[i]?
    return { k with expr }

/-- Select of all columns of a derived table. The ordering moves to the new select; only a
select that gives a part of its rows keeps its own as well. -/
def wrap (c : Compiled) : Drafting Compiled := do
  let label ← Draft.nextAlias
  let inner := if c.select.isPaged then c.select else { c.select with orderBy := [] }
  let query ← Draft.node (.select inner)
  let source ← Draft.node (.queryRef query label)
  let outer ← selectAll source label c.header
  return ⟨{ outer with orderBy := outerOrder c.select outer.exprs }, c.header⟩

/-- Select that can take up an operation. -/
def wrapFor (op : Operation) (c : Compiled) : Drafting Compiled :=
  if mustWrap c.select op then c.wrap else return c

/-- Rows that meet a predicate. -/
def filter (c : Compiled) (predicate : Scalar) : Drafting Compiled := do
  let condition ← Draft.scalar c.select.exprs predicate
  let filter ← Draft.conjunction c.select.filter condition
  return { c with select := { c.select with filter := some filter } }

/-- Order of the rows after a projection: the items up to the first whose column is gone. -/
def projectedOrder (order : List SortItem) (columns : List Nat) : List SortItem :=
  match order with
  | [] => []
  | item :: rest =>
    match columns.findIdx? (· == item.column) with
    | some column => { item with column } :: projectedOrder rest columns
    | none => []

/-- Columns at the positions. -/
def project (c : Compiled) (columns : List Nat) : Except Error Compiled := do
  let chosen ← columns.mapM fun i ↦
    match c.select.columns[i]?, c.header.columns[i]? with
    | some column, some info => .ok (column, info)
    | _, _ => .error (.columnOutOfRange i c.select.columns.length)
  let header := (Header.ofColumns (chosen.map (·.2))).withOrder
    (projectedOrder c.header.order columns)
  return ⟨{ c.select with columns := chosen.map (·.1) }, header⟩

/-- One more column. -/
def appendColumn (c : Compiled) (expr : Tree) (info : HeaderColumn) : Compiled :=
  let column := outputColumn expr (c.header.pushedName info)
  ⟨{ c.select with columns := c.select.columns ++ [column] }, c.header.push info⟩

/-- Computed columns, one after the other. -/
def extend (c : Compiled) : List Calculation → Drafting Compiled
  | [] => return c
  | calculation :: rest => do
    let expr ← Draft.scalar c.select.exprs calculation.expr
    extend (c.appendColumn expr ⟨calculation.name, calculation.type⟩) rest

/-- Condition that the columns of each pair are equal; none without pairs. -/
def joinCondition (left right : List Tree) :
    Option Tree → List (Nat × Nat) → Drafting (Option Tree)
  | condition, [] => return condition
  | condition, (l, r) :: rest => do
    let a ← Draft.columnAt left l
    let b ← Draft.columnAt right r
    let equality ← Draft.node (.binary .eq a b)
    joinCondition left right (some (← Draft.conjunction condition equality)) rest

/-- Columns of the right side after those of the left. -/
def joinColumns (left right : Compiled) : Compiled :=
  (right.select.columns.zip right.header.columns).foldl
    (fun c (column, info) ↦ c.appendColumn column.expr info) left

/-- Order of joined rows: that of the left side, then that of the right. -/
def joinOrder (left right : Header) : List SortItem :=
  left.order ++ right.order.map fun item ↦ { item with column := item.column + left.size }

/-- Kind, condition and filter of a join. Filters of the right side of an outer join restrict
its matches, not its rows. -/
def joinParts (type : JoinType) (condition left right : Option Tree) :
    Drafting (JoinKind × Option Tree × Option Tree) := do
  match type with
  | .inner =>
    let filter ← match left, right with
      | some a, some b => some <$> Draft.node (.binary .and a b)
      | a, b => pure (a <|> b)
    return (if condition.isSome then .inner else .cross, condition, filter)
  | .leftOuter =>
    let on ← match condition with
      | some c => pure c
      | none => Draft.node (.binary .eq (← Draft.integer 1) (← Draft.integer 1))
    let on ← match right with
      | some filter => Draft.node (.binary .and on filter)
      | none => pure on
    return (.leftOuter, some on, left)

/-- Joined rows of two selects, both of which have a row source. -/
def join (left right : Compiled) (type : JoinType) (pairs : List (Nat × Nat)) :
    Drafting (Option Compiled) := do
  let left ← left.wrapFor .join
  let right ← right.wrapFor .join
  match left.select.source, right.select.source with
  | some leftSource, some rightSource =>
    let condition ← joinCondition left.select.exprs right.select.exprs none pairs
    let columns := joinColumns left right
    let (kind, on, filter) ← joinParts type condition left.select.filter right.select.filter
    let source ← Draft.node (.join kind leftSource rightSource on)
    let select : Select Tree :=
      { columns := columns.select.columns, source := some source, filter }
    return some ⟨select, columns.header.withOrder (joinOrder left.header right.header)⟩
  | _, _ => return none

/-- Type that an aggregate is cast to. Averages keep the type of their column, floating point
of 32 bits apart, which servers average as such; sums get the declared type, decimals apart. -/
def aggregateCast (a : Aggregation) (header : Header) : Option SqlType :=
  match a.kind with
  | .avg =>
    (a.column.bind (header.columns[·]?)).bind fun c ↦
      if c.type.isNumeric ∧ c.type ≠ .float32 then some c.type else none
  | .sum =>
    match a.type with
    | .decimal _ _ => none
    | type => some type
  | _ => none

/-- Aggregate function of a source column. -/
def aggregateExpr (a : Aggregation) (header : Header) (exprs : List Tree) : Drafting Tree := do
  let operand ← a.column.mapM fun i ↦ (liftM (Draft.columnAt exprs i) : Drafting Tree)
  if a.kind ≠ .count ∧ operand.isNone then throw (.aggregateWithoutColumn a.kind a.name)
  let call ← Draft.node (.aggregate a.kind false operand)
  match aggregateCast a header with
  | some type => Draft.node (.cast call type)
  | none => return call

/-- Columns that rows are grouped by. -/
def groupColumns (c : Compiled) (groups : Compiled) : List Nat → Except Error Compiled
  | [] => return groups
  | i :: rest => do
    let expr ← Draft.columnAt c.select.exprs i
    match c.header.columns[i]? with
    | some info => groupColumns c (groups.appendColumn expr info) rest
    | none => throw (.columnOutOfRange i c.header.size)

/-- Aggregates after the columns that rows are grouped by. -/
def aggregateColumns (c : Compiled) (groups : Compiled) : List Aggregation → Drafting Compiled
  | [] => return groups
  | a :: rest => do
    let expr ← aggregateExpr a c.header c.select.exprs
    aggregateColumns c (groups.appendColumn expr ⟨a.name, a.type⟩) rest

/-- One row for each group of rows that agree on some columns. -/
def aggregate (c : Compiled) (groupBy : List Nat) (aggregates : List Aggregation) :
    Drafting Compiled := do
  let groups ← c.groupColumns ⟨{}, {}⟩ groupBy
  let all ← c.aggregateColumns groups aggregates
  let select := { c.select with
    columns := all.select.columns
    groupBy := groups.select.exprs
    orderBy := [] }
  return ⟨select, all.header.withOrder ((List.range groupBy.length).map (⟨·, true⟩))⟩

/-- Rows sorted anew. -/
def sort (c : Compiled) (order : List SortItem) : Except Error Compiled := do
  let orderBy ← order.mapM fun item ↦
    return SortKey.of (← Draft.columnAt c.select.exprs item.column) item.ascending
  return ⟨{ c.select with orderBy }, c.header.withOrder order⟩

/-- Rows without duplicates. They can be ordered by output columns only. -/
def distinct (c : Compiled) : Compiled :=
  let isOutput (k : SortKey Tree) : Bool := c.select.exprs.any (·.id == k.expr.id)
  { c with select := { c.select with
      distinct := true
      orderBy := c.select.orderBy.filter isOutput } }

/-- Sort keys of a header's order. -/
def headerOrder (exprs : List Tree) (header : Header) : List (SortKey Tree) :=
  header.order.filterMap fun item ↦ exprs[item.column]?.map (SortKey.of · item.ascending)

/-- Select ordered by its header, if it has no ordering and is to get one. -/
def ordered (c : Compiled) (isWanted : Bool) : Compiled :=
  if isWanted && c.select.orderBy.isEmpty then
    { c with select := { c.select with orderBy := headerOrder c.select.exprs c.header } }
  else c

/-- Value of an integer constant. -/
def integer? (t : Tree) : Option Int64 :=
  match t.node with
  | .literal (.integer value) => some value
  | _ => none

/-- Sum of two integers, which stops at the ends of the range. -/
def saturatingSum (a b : Int64) : Int64 :=
  Int64.ofInt (max Int64.minValue.toInt (min Int64.maxValue.toInt (a.toInt + b.toInt)))

/-- Smaller of two counts, computed at once if both are constants. -/
def minCount (a b : Tree) : Drafting Tree := do
  match integer? a, integer? b with
  | some x, some y => Draft.integer (if x ≤ y then x else y)
  | _, _ => Draft.node (.case [(← Draft.node (.binary .lt a b), a)] (some b))

/-- Sum of two counts, computed at once if both are constants. -/
def sumCounts (a b : Tree) : Drafting Tree :=
  match integer? a, integer? b with
  | some x, some y => Draft.integer (saturatingSum x y)
  | _, _ => Draft.node (.binary .plus a b)

/-- Limit on the number of rows, beside a limit there is already. -/
def limit (c : Compiled) (count : Tree) (isOrdered : Bool) : Drafting Compiled := do
  let limit ← match c.select.limit with
    | some existing => minCount existing count
    | none => pure count
  return ordered { c with select := { c.select with limit := some limit } } isOrdered

/-- Number of rows left out at the front, beside those left out already. -/
def offset (c : Compiled) (count : Tree) (isOrdered : Bool) : Drafting Compiled := do
  let offset ← match c.select.offset with
    | some existing => sumCounts existing count
    | none => pure count
  return ordered { c with select := { c.select with offset := some offset } } isOrdered

/-- Select with a row lock. -/
def lock (c : Compiled) (lock : Lock) : Compiled :=
  { c with select := { c.select with lock := some lock } }

end Compiled

end SqlWright
