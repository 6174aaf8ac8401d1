import SqlWright.Error
import SqlWright.SqlType

/-!
# Tables

A table has a name, columns of different names, and a key made of its columns.
`Table.build` makes one from its parts and refuses parts that do not fit.
-/

namespace SqlWright

/-- Column of a stored table. -/
structure Column where
  name : String
  type : SqlType
  nullable : Bool
  deriving DecidableEq

/-- Stored table. The key lists positions of columns. -/
structure Table where
  schema : Option String
  name : String
  columns : List Column
  key : List Nat
  deriving DecidableEq

namespace Table

/-- Position of the column with the name. -/
def columnIndex? (t : Table) (name : String) : Option Nat :=
  t.columns.findIdx? (·.name == name)

/-- First name that a list of columns gives twice. -/
def duplicate? : List String → List Column → Option String
  | _, [] => none
  | seen, c :: rest => if seen.contains c.name then some c.name else duplicate? (c.name :: seen) rest

/-- Table with the given parts. The first of these is refused: an empty name, no columns, two
columns of one name, a key column that the table does not have. -/
def build (schema : Option String) (name : String) (columns : List Column)
    (key : List String) : Except Error Table := do
  if name.isEmpty then throw .emptyTableName
  if columns.isEmpty then throw (.tableWithoutColumns name)
  if let some column := duplicate? [] columns then throw (.duplicateColumn column name)
  let key ← key.mapM fun k ↦
    match columns.findIdx? (·.name == k) with
    | some i => .ok i
    | none => .error (.unknownKeyColumn k name)
  return { schema, name, columns, key }

end Table

end SqlWright
