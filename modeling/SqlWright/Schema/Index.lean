import SqlWright.Schema.Table

/-!
# Indexes

An index orders the rows of a table by some of its columns.
-/

namespace SqlWright

/-- Column of an index and its direction. -/
structure IndexColumn where
  name : String
  ascending : Bool
  deriving DecidableEq

/-- Index of a stored table. The fill factor is the share of each page, in percent, that is
filled when the index is made. -/
structure Index where
  name : String
  tableSchema : Option String
  tableName : String
  columns : List IndexColumn
  unique : Bool
  fillFactor : Option UInt8
  deriving DecidableEq

namespace Index

/-- Index of a table. The first of these is refused: no columns, a column that the table does
not have, a fill factor outside one to a hundred. -/
def build (name : String) (table : Table) (columns : List IndexColumn) (unique : Bool)
    (fillFactor : Option UInt8) : Except Error Index := do
  if columns.isEmpty then throw (.indexWithoutColumns name)
  if let some column := columns.find? fun c ↦ (table.columnIndex? c.name).isNone then
    throw (.unknownIndexColumn column.name table.name)
  if let some percent := fillFactor then
    if percent < 1 || 100 < percent then throw (.fillFactorOutOfRange percent)
  return {
    name, columns, unique, fillFactor
    tableSchema := table.schema
    tableName := table.name }

end Index

end SqlWright
