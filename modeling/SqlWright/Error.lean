import SqlWright.Decimal.Shortest
import SqlWright.Dom.Kind
import SqlWright.Dom.Operator
import SqlWright.SqlType

/-!
# What can go wrong

The causes for which a definition is refused, a statement has no text, or a
command cannot be rendered, and the message of each.
-/

namespace SqlWright

/-- Rule of a server that a construct of a statement needs. -/
inductive Rule where
  | identifierQuoting
  | stringLiteral
  | booleanLiteral
  | dateTimeLiteral
  | dateLiteral
  | parameterMark
  | function (f : ScalarFunction)
  | aggregate (kind : AggregateKind)
  | operator (op : BinaryOp)
  | paging
  | lock
  | tableAlias
  | fromless
  | nullsOrdering
  | windowFunctions
  | offsetOrdering
  | fillFactor
  | typeName (type : SqlType)
  deriving DecidableEq

/-- Words for the rule in messages. -/
def Rule.description : Rule → String
  | identifierQuoting => "identifier quoting"
  | stringLiteral => "string literal"
  | booleanLiteral => "boolean literal"
  | dateTimeLiteral => "datetime literal"
  | dateLiteral => "date literal"
  | parameterMark => "parameter prefix"
  | function f => "function " ++ f.title
  | aggregate kind => "aggregate " ++ kind.title
  | operator op => "operator " ++ op.title
  | paging => "paging"
  | lock => "lock"
  | tableAlias => "table alias"
  | fromless => "select without FROM"
  | nullsOrdering => "NULLS ordering"
  | windowFunctions => "window functions"
  | offsetOrdering => "offset ordering"
  | fillFactor => "fill factor"
  | typeName type => "type " ++ type.description

/-- Cause of a failure. -/
inductive Error where
  | emptyTableName
  | tableWithoutColumns (table : String)
  | duplicateColumn (column table : String)
  | unknownKeyColumn (column table : String)
  | indexWithoutColumns (index : String)
  | unknownIndexColumn (column table : String)
  | fillFactorOutOfRange (percent : UInt8)
  | emptyDynamicFilter (id : String)
  | filterRowWidth (id : String) (expected actual : Nat)
  | aggregateWithoutColumn (kind : AggregateKind) (name : String)
  | notFinite (value : Decimal.Binary64)
  | unknownTable (name : String)
  | unreadablePlan
  | kindMismatch (expected actual : Kind)
  | placeholderNotSet (id : String)
  | dynamicFilterNotSet (id : String)
  | parameterNameNotFound (hint : String)
  | missingRule (dialect : String) (rule : Rule)
  | unsupported (feature server : String)
  | unsupportedServer (server : String)
  | invalidVersion (text : String)
  | notCompilable (operator : String)
  | columnOutOfRange (index count : Nat)
  deriving DecidableEq

namespace Error

/-- Argument that the failure puts down to the caller, and what is wrong with it. -/
def invalidArgument? : Error → Option (String × String)
  | emptyTableName => some ("name", "table name is empty")
  | tableWithoutColumns table => some ("columns", s!"table {table} has no columns")
  | duplicateColumn column table =>
    some ("columns", s!"duplicate column {column} in table {table}")
  | unknownKeyColumn column table =>
    some ("key", s!"key column {column} is not a column of {table}")
  | indexWithoutColumns index => some ("columns", s!"index {index} has no columns")
  | unknownIndexColumn column table => some ("columns", s!"{column} is not a column of {table}")
  | fillFactorOutOfRange percent =>
    some ("fill_factor", s!"{percent.toNat.repr} is outside 1..=100")
  | emptyDynamicFilter id => some ("expressions", s!"dynamic filter {id} filters no expression")
  | filterRowWidth id expected actual =>
    some ("rows", s!"dynamic filter {id} filters {expected.repr} expressions, " ++
      s!"got a row of {actual.repr}")
  | aggregateWithoutColumn kind name =>
    some ("column", s!"{kind.title} aggregate {name} needs a source column")
  | notFinite value => some ("literal", s!"{value.text} has no SQL representation")
  | unknownTable name => some ("table", s!"unknown table {name}")
  | unreadablePlan => some ("plan", "not a plan document")
  | _ => none

/-- Text of the failure. -/
def message : Error → String
  | kindMismatch expected actual =>
    s!"cannot replace a {expected.title} node with a {actual.title} node"
  | placeholderNotSet id => s!"value for placeholder {id} is not set"
  | dynamicFilterNotSet id => s!"values for dynamic filter {id} are not set"
  | parameterNameNotFound hint => s!"parameter name not found for {hint}"
  | missingRule dialect rule => s!"{dialect} translator has no rule for {rule.description}"
  | unsupported feature server => s!"{feature} is not supported by {server}"
  | unsupportedServer server => s!"unsupported server: {server}"
  | invalidVersion text => s!"invalid server version `{text}`"
  | notCompilable operator => s!"no compiler accepted the {operator} provider"
  | columnOutOfRange index count =>
    s!"column index {index.repr} is out of range for a source with {count.repr} columns"
  | e =>
    match e.invalidArgument? with
    | some (argument, reason) => s!"invalid argument `{argument}`: {reason}"
    | none => ""

end Error

end SqlWright
