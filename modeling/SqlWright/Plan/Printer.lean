import SqlWright.Plan.Document
import SqlWright.Plan.Element

/-!
# Writing plan documents

The JSON form of a document, all fields written out.
-/

namespace SqlWright.Plan

/-- Form of a choice with its fields. -/
def chosen (name : String) (fields : List (String × Json)) : Json :=
  .ofFields [(name, .ofFields fields)]

/-- Form of an operation of a query, whose name is its first field. -/
def operation (name : String) (fields : List (String × Json)) : Json :=
  .ofFields (("op", .ofString name) :: fields)

/-- Form of a list of positions. -/
def positions (columns : List Nat) : Json := .array (columns.map .ofNat)

mutual

/-- Form of an expression. -/
def Expr.toJson : Expr → Json
  | .column i => .ofFields [("column", .ofNat i)]
  | .value v => .ofFields [("value", v.toJson)]
  | .null => .ofString "null"
  | .parameter name => .ofFields [("parameter", .ofString name)]
  | .placeholder key => .ofFields [("placeholder", .ofString key)]
  | .typeIs index type =>
    chosen "type_is" [("column", .ofNat index), ("type_name", .ofString type)]
  | .binary op left right => chosen "binary"
    [("op", .ofString op.name), ("left", left.toJson), ("right", right.toJson)]
  | .unary op operand => chosen "unary" [("op", .ofString op.name), ("operand", operand.toJson)]
  | .function f args => chosen "function"
    [("function", .ofString f.name), ("args", .array (Expr.listToJson args))]
  | .inList id columns => chosen "in_list"
    [("id", .ofString id), ("columns", .array (Expr.listToJson columns))]

/-- Forms of expressions. -/
def Expr.listToJson : List Expr → List Json
  | [] => []
  | e :: rest => e.toJson :: Expr.listToJson rest

end

/-- Form of a computed column. -/
def CalculationSpec.toJson (c : CalculationSpec) : Json :=
  .ofFields [("name", .ofString c.name), ("expr", c.expr.toJson), ("type", c.type.toJson)]

/-- Form of a query. -/
def Query.toJson : Query → Json
  | .index table => operation "index" [("table", .ofString table)]
  | .raw sql columns =>
    operation "raw" [("sql", .ofString sql), ("columns", .array (columns.map Column.toJson))]
  | .filter source predicate =>
    operation "filter" [("source", source.toJson), ("predicate", predicate.toJson)]
  | .select source columns =>
    operation "select" [("source", source.toJson), ("columns", positions columns)]
  | .calculate source columns => operation "calculate"
    [("source", source.toJson), ("columns", .array (columns.map CalculationSpec.toJson))]
  | .join left right kind on => operation "join"
    [("left", left.toJson), ("right", right.toJson), ("kind", .ofString kind.name),
     ("on", .array (on.map fun (l, r) ↦ positions [l, r]))]
  | .aggregate source groupBy aggregates => operation "aggregate"
    [("source", source.toJson), ("group_by", positions groupBy),
     ("aggregates", .array (aggregates.map Aggregation.toJson))]
  | .sort source order => operation "sort"
    [("source", source.toJson), ("order", .array (order.map SortItem.toJson))]
  | .distinct source => operation "distinct" [("source", source.toJson)]
  | .take source count => operation "take" [("source", source.toJson), ("count", count.toJson)]
  | .skip source count => operation "skip" [("source", source.toJson), ("count", count.toJson)]
  | .paging source leaving taking => operation "paging"
    [("source", source.toJson), ("skip", leaving.toJson), ("take", taking.toJson)]
  | .lock source wanted => operation "lock"
    [("source", source.toJson), ("mode", .ofString wanted.mode.name),
     ("behavior", .ofString wanted.behavior.name)]

/-- Form of the description of a table. -/
def TableSpec.toJson (t : TableSpec) : Json :=
  .ofFields [
    ("schema", match t.schema with
      | some s => .ofString s
      | none => .null),
    ("name", .ofString t.name),
    ("columns", .array (t.columns.map Column.toJson)),
    ("key", .array (t.key.map .ofString))]

/-- Form of a document. -/
def Document.toJson (d : Document) : Json :=
  .ofFields [("tables", .array (d.tables.map TableSpec.toJson)), ("query", d.query.toJson)]

end SqlWright.Plan
