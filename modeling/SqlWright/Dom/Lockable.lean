import SqlWright.Dom.Tree

/-!
# Rows that can be locked

A row lock reaches the stored rows behind a select, through its derived tables
too, unless the select computes its rows: by leaving out duplicates, by grouping,
or by a function of many rows in its columns.
-/

namespace SqlWright.Tree

/-- Whether an expression holds a function of many rows, its subqueries aside. -/
def computesRows (t : Tree) : Bool :=
  fold (fun
    | .aggregate _ _ _ | .rowNumber _ => true
    | .subquery _ | .select _ => false
    | n => n.children.any (·.2)) t

/-- Whether a select given as a derived table can be locked; whatever else stands there can. -/
def derivedLockable (c : Tree × Bool) : Bool := c.1.select?.isNone || c.2

/-- Whether a row source can be locked; a select that is no derived table does not count. -/
def sourceLockable (c : Tree × Bool) : Bool := c.1.select?.isSome || c.2

/-- Whether the rows of a select can be locked, given which of its parts can be. -/
def selectLockable (s : Select (Tree × Bool)) : Bool :=
  !s.distinct && !s.isGrouped && !s.columns.any (fun c ↦ computesRows c.expr.1) &&
    s.source.all sourceLockable

/-- Whether the rows of a select or of a row source can be locked. -/
def lockable (t : Tree) : Bool :=
  fold (fun
    | .select s => selectLockable s
    | .queryRef query _ => derivedLockable query
    | .join _ left right _ => sourceLockable left && sourceLockable right
    | _ => true) t

end SqlWright.Tree
