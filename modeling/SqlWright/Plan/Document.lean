import SqlWright.Relation.Basic

/-!
# Plan documents

A plan document describes some tables and a query over them. Tables and
parameters go by their names.
-/

namespace SqlWright.Plan

/-- Description of a table. The key names columns. -/
structure TableSpec where
  schema : Option String
  name : String
  columns : List Column
  key : List String

/-- Expression over the columns of a source. -/
inductive Expr where
  | column (index : Nat)
  | value (value : Literal)
  | null
  | parameter (name : String)
  | placeholder (key : String)
  | typeIs (column : Nat) (type : String)
  | binary (op : BinaryOp) (left right : Expr)
  | unary (op : UnaryOp) (operand : Expr)
  | function (f : ScalarFunction) (args : List Expr)
  | inList (id : String) (columns : List Expr)

/-- Description of a computed column. -/
structure CalculationSpec where
  name : String
  expr : Expr
  type : SqlType

/-- Operations of a query. -/
inductive Query where
  | index (table : String)
  | raw (sql : String) (columns : List Column)
  | filter (source : Query) (predicate : Expr)
  | select (source : Query) (columns : List Nat)
  | calculate (source : Query) (columns : List CalculationSpec)
  | join (left right : Query) (kind : JoinType) (on : List (Nat × Nat))
  | aggregate (source : Query) (groupBy : List Nat) (aggregates : List Aggregation)
  | sort (source : Query) (order : List SortItem)
  | distinct (source : Query)
  | take (source : Query) (count : Expr)
  | skip (source : Query) (count : Expr)
  | paging (source : Query) (skip take : Expr)
  | lock (source : Query) (lock : Lock)

/-- Tables and a query. -/
structure Document where
  tables : List TableSpec
  query : Query

end SqlWright.Plan
