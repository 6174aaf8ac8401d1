import SqlWright.Schema.Table

/-!
# Headers

The header of a relation: its columns, whose names differ, and the order its rows
come in. `push` numbers a name that is taken.
-/

namespace SqlWright

/-- Column of a relation. -/
structure HeaderColumn where
  name : String
  type : SqlType
  deriving DecidableEq

/-- Position of a column that rows are sorted by, and the direction. -/
structure SortItem where
  column : Nat
  ascending : Bool
  deriving DecidableEq

/-- Columns of a relation and the order of its rows. -/
structure Header where
  columns : List HeaderColumn := []
  order : List SortItem := []
  deriving DecidableEq

/-- Way in which rows of two relations are matched: matches only, or every left row. -/
inductive JoinType where
  | inner
  | leftOuter
  deriving DecidableEq

namespace JoinType

/-- Name in documents. -/
def name : JoinType → String
  | inner => "inner"
  | leftOuter => "left_outer"

/-- Value that has the name. -/
def ofName? (s : String) : Option JoinType := [inner, leftOuter].find? (·.name == s)

end JoinType

namespace Header

/-- Number of columns. -/
def size (h : Header) : Nat := h.columns.length

/-- Names of the columns. -/
def names (h : Header) : List String := h.columns.map (·.name)

/-- Name with the number `i + 1` after it. -/
def numbered (base : String) (i : Nat) : String := base ++ (i + 1).repr

/-- The name if it is free, else the name with the least number that makes it free. Of one
number more than there are names, one is free. -/
def freeName (taken : List String) (name : String) : String :=
  if taken.contains name then
    (((List.range (taken.length + 1)).map (numbered name)).find?
      fun candidate ↦ !taken.contains candidate).getD name
  else name

/-- Header with one more column, under a free name. -/
def push (h : Header) (c : HeaderColumn) : Header :=
  { h with columns := h.columns ++ [{ c with name := freeName h.names c.name }] }

/-- Name that `push` gives to a column. -/
def pushedName (h : Header) (c : HeaderColumn) : String := freeName h.names c.name

/-- Header of some columns in no order. -/
def ofColumns (columns : List HeaderColumn) : Header := columns.foldl push {}

/-- Header of the same columns in another order. -/
def withOrder (h : Header) (order : List SortItem) : Header := { h with order }

/-- Header of a table: its columns, ordered by its key. -/
def ofTable (t : Table) : Header :=
  (ofColumns (t.columns.map fun c ↦ ⟨c.name, c.type⟩)).withOrder (t.key.map (⟨·, true⟩))

end Header

end SqlWright
