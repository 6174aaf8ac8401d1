/-!
# Kinds of nodes

What a node of a statement is, apart from what it holds. A node keeps its kind
for good.
-/

namespace SqlWright

/-- Kind of a node: expressions, then row sources, then statements. -/
inductive Kind where
  | null
  | literal
  | column
  | variable
  | parameter
  | placeholder
  | binary
  | unary
  | function
  | aggregate
  | cast
  | case
  | row
  | dynamicFilter
  | subquery
  | variant
  | rowNumber
  | native
  | table
  | queryRef
  | join
  | select
  | insert
  | update
  | delete
  | createIndex
  deriving DecidableEq

/-- Word for the kind in messages. -/
def Kind.title : Kind → String
  | null => "Null"
  | literal => "Literal"
  | column => "Column"
  | .variable => "Variable"
  | parameter => "Parameter"
  | placeholder => "Placeholder"
  | binary => "Binary"
  | unary => "Unary"
  | function => "Function"
  | aggregate => "Aggregate"
  | cast => "Cast"
  | case => "Case"
  | row => "Row"
  | dynamicFilter => "DynamicFilter"
  | subquery => "SubQuery"
  | variant => "Variant"
  | rowNumber => "RowNumber"
  | native => "Native"
  | table => "Table"
  | queryRef => "QueryRef"
  | join => "Join"
  | select => "Select"
  | insert => "Insert"
  | update => "Update"
  | delete => "Delete"
  | createIndex => "CreateIndex"

end SqlWright
