import SqlWright.Relation.Select

/-!
# Pages by row numbers

A server that cannot limit rows by itself numbers them: a derived table has the
columns of the source and the number of each row, and the outer select keeps the
numbers of the page.
-/

namespace SqlWright.Compiled

/-- Ordering in which rows are numbered: that of the select, else that of its header, else
that by the first column. -/
def numberingOrder (c : Compiled) : List (SortKey Tree) :=
  if !c.select.orderBy.isEmpty then c.select.orderBy
  else
    let byHeader := headerOrder c.select.exprs c.header
    if !byHeader.isEmpty then byHeader
    else (c.select.exprs.take 1).map (SortKey.of · true)

/-- Name of the column with the row numbers. -/
def numberName (c : Compiled) : String := c.header.pushedName ⟨"rn", .int64⟩

/-- Select of the source's columns and the row numbers. -/
def numbered (c : Compiled) : Drafting (Select Tree) := do
  let number ← Draft.node (.rowNumber c.numberingOrder)
  return { c.select with
    columns := c.select.columns ++ [⟨number, some c.numberName⟩]
    orderBy := if c.select.isPaged then c.select.orderBy else [] }

/-- Condition that a row number is above the rows left out and within the rows taken. -/
def numberCondition (row : Tree) (skip take : Option Tree) : Drafting (Option Tree) := do
  let lower ← skip.mapM fun s ↦ Draft.node (.binary .gt row s)
  let upper ← take.mapM fun t ↦ do
    let last ← match skip with
      | some s => sumCounts s t
      | none => pure t
    Draft.node (.binary .ltEq row last)
  match lower, upper with
  | some l, some u => some <$> Draft.node (.binary .and l u)
  | l, u => return l <|> u

/-- Page of a source: the rows after some and up to some number, in the order of their
numbers. -/
def numberedPage (c : Compiled) (skip take : Option Scalar) : Drafting Compiled := do
  let inner ← c.numbered
  let label ← Draft.nextAlias
  let source ← Draft.node (.queryRef (← Draft.node (.select inner)) label)
  let outer ← selectAll source label c.header
  let row ← Draft.column label c.numberName
  let skip ← skip.mapM (Draft.scalar [])
  let take ← take.mapM (Draft.scalar [])
  let filter ← numberCondition row skip take
  return ⟨{ outer with filter, orderBy := [SortKey.of row true] }, c.header⟩

end SqlWright.Compiled
