import SqlWright.Dom.Parameter
import SqlWright.Literal
import SqlWright.Relation.Header

/-!
# Relations

A relation says what a query computes: a stored table or a native query, and
operations on relations. Columns of a source are named by their positions. Scalar
expressions compute values from the columns of one row.
-/

namespace SqlWright

/-- Expression over the columns of a source. -/
inductive Scalar where
  | column (index : Nat)
  | constant (value : Literal)
  | null
  | parameter (parameter : Parameter)
  | placeholder (id : Placeholder)
  /-- Whether the column holds the number of the type. -/
  | typeIs (column : Nat) (type : String)
  | binary (op : BinaryOp) (left right : Scalar)
  | unary (op : UnaryOp) (operand : Scalar)
  | function (f : ScalarFunction) (args : List Scalar)
  /-- Whether the row of expressions is among the rows bound when the query is executed. -/
  | inList (id : String) (columns : List Scalar)

/-- Column that is computed for each row. -/
structure Calculation where
  name : String
  expr : Scalar
  type : SqlType

/-- Column that is computed for each group; without a source column the rows are counted. -/
structure Aggregation where
  name : String
  kind : AggregateKind
  column : Option Nat
  type : SqlType

/-- What a query computes. -/
inductive Relation where
  /-- Rows of a stored table. -/
  | table (table : Table)
  /-- Rows of a query in the server's own words. -/
  | native (sql : String) (header : Header)
  | filter (source : Relation) (predicate : Scalar)
  /-- Columns at the positions. -/
  | project (source : Relation) (columns : List Nat)
  /-- Columns of the source and computed ones, which may use those computed before. -/
  | extend (source : Relation) (columns : List Calculation)
  /-- Rows that agree on pairs of a left and a right column. -/
  | join (left right : Relation) (type : JoinType) (pairs : List (Nat × Nat))
  | aggregate (source : Relation) (groupBy : List Nat) (aggregates : List Aggregation)
  | sort (source : Relation) (order : List SortItem)
  | distinct (source : Relation)
  | take (source : Relation) (count : Scalar)
  | skip (source : Relation) (count : Scalar)
  | page (source : Relation) (skip take : Scalar)
  | lock (source : Relation) (lock : Lock)

namespace Relation

/-- Name of the outermost operation in messages. -/
def operation : Relation → String
  | table _ => "Index"
  | native _ _ => "Raw"
  | filter _ _ => "Filter"
  | project _ _ => "Select"
  | extend _ _ => "Calculate"
  | join _ _ _ _ => "Join"
  | aggregate _ _ _ => "Aggregate"
  | sort _ _ => "Sort"
  | distinct _ => "Distinct"
  | take _ _ => "Take"
  | skip _ _ => "Skip"
  | page _ _ _ => "Paging"
  | lock _ _ => "Lock"

/-- Operations, with the sources in parentheses. -/
def text (r : Relation) : String :=
  match r with
  | table t => s!"{r.operation}({t.name})"
  | native _ _ => r.operation
  | join a b _ _ => s!"{r.operation}({a.text}, {b.text})"
  | filter a _ | project a _ | extend a _ | aggregate a _ _ | sort a _ | distinct a | take a _
  | skip a _ | page a _ _ | lock a _ => s!"{r.operation}({a.text})"

/-- Whether the relation is a part of the rows of its source, in their order. -/
def isPaging : Relation → Bool
  | take _ _ | skip _ _ | page _ _ _ => true
  | _ => false

end Relation

end SqlWright
