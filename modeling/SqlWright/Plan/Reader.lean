import SqlWright.Json.Reader
import SqlWright.Plan.Document
import SqlWright.Plan.Element

/-!
# Reading plan documents

The document of a JSON form. Fields that have a default may be left out. A
document whose arrays and objects are nested too deep is refused, and so is a
query that holds anything unsound, be it in a field that is passed over.
-/

namespace SqlWright.Plan

/-- Expression of a form, nested less than `depth` deep. -/
def Expr.ofJson? : Nat → Json → Option Expr
  | 0, _ => none
  | depth + 1, j => do
    let (name, content) ← j.choice?
    match name, content with
    | "column", some c => return .column (← c.position?)
    | "value", some c => return .value (← Literal.ofJson? c)
    | "null", c => if c.all Json.isVoid then return .null else none
    | "parameter", some c => return .parameter (← c.string?)
    | "placeholder", some c => return .placeholder (← c.string?)
    | "type_is", some c =>
      match ← c.fields? ["column", "type_name"] with
      | [index, type] =>
        return .typeIs (← Json.required? (·.position?) index) (← Json.required? (·.string?) type)
      | _ => none
    | "binary", some c =>
      match ← c.fields? ["op", "left", "right"] with
      | [op, left, right] =>
        return .binary (← Json.required? (·.named? Json.isVoid BinaryOp.ofName?) op)
          (← Json.required? (Expr.ofJson? depth) left)
          (← Json.required? (Expr.ofJson? depth) right)
      | _ => none
    | "unary", some c =>
      match ← c.fields? ["op", "operand"] with
      | [op, operand] =>
        return .unary (← Json.required? (·.named? Json.isVoid UnaryOp.ofName?) op)
          (← Json.required? (Expr.ofJson? depth) operand)
      | _ => none
    | "function", some c =>
      match ← c.fields? ["function", "args"] with
      | [f, args] =>
        return .function (← Json.required? (·.named? Json.isVoid ScalarFunction.ofName?) f)
          (← Json.withDefault? [] (Json.list? (Expr.ofJson? depth)) args)
      | _ => none
    | "in_list", some c =>
      match ← c.fields? ["id", "columns"] with
      | [id, columns] =>
        return .inList (← Json.required? (·.string?) id)
          (← Json.required? (Json.list? (Expr.ofJson? depth)) columns)
      | _ => none
    | _, _ => none

/-- Computed column of a form. -/
def CalculationSpec.ofJson? (depth : Nat) (j : Json) : Option CalculationSpec := do
  match ← j.fields? ["name", "expr", "type"] with
  | [name, expr, type] =>
    return {
      name := ← Json.required? (·.string?) name
      expr := ← Json.required? (Expr.ofJson? depth) expr
      type := ← Json.required? (SqlType.ofJson? Json.isVoid) type }
  | _ => none

/-- Names of the operations. -/
def operations : List String :=
  ["index", "raw", "filter", "select", "calculate", "join", "aggregate", "sort", "distinct",
   "take", "skip", "paging", "lock"]

/-- Tag of an operation and the record of its fields: the field `op` and the other fields of an
object, or the first of an array and the rest. -/
def tagged? : Json → Option (Json × Json)
  | .object members =>
    match Json.given members "op" with
    | [tag] => some (tag, .object (members.filter (·.1 ≠ some "op")))
    | _ => none
  | .array (tag :: fields) => some (tag, .array fields)
  | _ => none

/-- Name of the operation that a tag stands for. Below the outermost operation, a tag may be
the position of the name. -/
def operationName? (isOutermost : Bool) (tag : Json) : Option String :=
  if isOutermost then tag.string?
  else tag.string? <|> (tag.nat? operations.length).bind (operations[·]?)

/-- Query of a form, nested less than `depth` deep. -/
def Query.ofJson? (isOutermost : Bool) : Nat → Json → Option Query
  | 0, _ => none
  | depth + 1, j => do
    let (tag, fields) ← tagged? j
    let name ← operationName? isOutermost tag
    let source? := Json.required? (Query.ofJson? false depth)
    let expr? := Json.required? (Expr.ofJson? depth)
    match name with
    | "index" =>
      match ← fields.fields? ["table"] with
      | [table] => return .index (← Json.required? (·.string?) table)
      | _ => none
    | "raw" =>
      match ← fields.fields? ["sql", "columns"] with
      | [sql, columns] =>
        return .raw (← Json.required? (·.string?) sql)
          (← Json.required? (Json.list? (Column.ofJson? Json.isVoid)) columns)
      | _ => none
    | "filter" =>
      match ← fields.fields? ["source", "predicate"] with
      | [source, predicate] => return .filter (← source? source) (← expr? predicate)
      | _ => none
    | "select" =>
      match ← fields.fields? ["source", "columns"] with
      | [source, columns] =>
        return .select (← source? source)
          (← Json.required? (Json.list? (·.position?)) columns)
      | _ => none
    | "calculate" =>
      match ← fields.fields? ["source", "columns"] with
      | [source, columns] =>
        return .calculate (← source? source)
          (← Json.required? (Json.list? (CalculationSpec.ofJson? depth)) columns)
      | _ => none
    | "join" =>
      match ← fields.fields? ["left", "right", "kind", "on"] with
      | [left, right, kind, on] =>
        return .join (← source? left) (← source? right)
          (← Json.withDefault? .inner (·.named? Json.isVoid JoinType.ofName?) kind)
          (← Json.required? (Json.list? (Json.pair? (·.position?))) on)
      | _ => none
    | "aggregate" =>
      match ← fields.fields? ["source", "group_by", "aggregates"] with
      | [source, groupBy, aggregates] =>
        return .aggregate (← source? source)
          (← Json.withDefault? [] (Json.list? (·.position?)) groupBy)
          (← Json.required? (Json.list? Aggregation.ofJson?) aggregates)
      | _ => none
    | "sort" =>
      match ← fields.fields? ["source", "order"] with
      | [source, order] =>
        return .sort (← source? source)
          (← Json.required? (Json.list? SortItem.ofJson?) order)
      | _ => none
    | "distinct" =>
      match ← fields.fields? ["source"] with
      | [source] => return .distinct (← source? source)
      | _ => none
    | "take" =>
      match ← fields.fields? ["source", "count"] with
      | [source, count] => return .take (← source? source) (← expr? count)
      | _ => none
    | "skip" =>
      match ← fields.fields? ["source", "count"] with
      | [source, count] => return .skip (← source? source) (← expr? count)
      | _ => none
    | "paging" =>
      match ← fields.fields? ["source", "skip", "take"] with
      | [source, leaving, taking] =>
        return .paging (← source? source) (← expr? leaving) (← expr? taking)
      | _ => none
    | "lock" =>
      match ← fields.fields? ["source", "mode", "behavior"] with
      | [source, mode, behavior] =>
        return .lock (← source? source) ⟨
          ← Json.required? (·.named? Json.isVoid LockMode.ofName?) mode,
          ← Json.withDefault? .wait (·.named? Json.isVoid LockBehavior.ofName?) behavior⟩
      | _ => none
    | _ => none

/-- Table description of a form. -/
def TableSpec.ofJson? (j : Json) : Option TableSpec := do
  match ← j.fields? ["schema", "name", "columns", "key"] with
  | [schema, name, columns, key] =>
    return {
      schema := ← Json.withDefault? none (Json.nullable? (·.string?)) schema
      name := ← Json.required? (·.string?) name
      columns := ← Json.required? (Json.list? (Column.ofJson? Json.isNull)) columns
      key := ← Json.withDefault? [] (Json.list? (·.string?)) key }
  | _ => none

/-- How deep arrays and objects may be nested in a document. -/
def maxDepth : Nat := 127

/-- Document of a form. -/
def Document.ofJson? (j : Json) : Option Document := do
  match ← j.fields? ["tables", "query"] with
  | [tables, query] =>
    let tables ← Json.withDefault? [] (Json.list? TableSpec.ofJson?) tables
    let query ← query
    if query.isSound (maxDepth - 1) then
      return ⟨tables, ← Query.ofJson? true maxDepth query⟩
    else none
  | _ => none

/-- Document that a text holds. -/
def Document.ofText (s : String) : Except Error Document :=
  match (Json.ofText? s).bind Document.ofJson? with
  | some d => .ok d
  | none => .error .unreadablePlan

end SqlWright.Plan
