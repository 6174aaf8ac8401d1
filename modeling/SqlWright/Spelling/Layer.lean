import SqlWright.Error
import SqlWright.Literal
import SqlWright.Spelling.Template

/-!
# Spellings

How a server spells each construct, as layers of rules from the most general to
that of the server's version. The latest layer that has a rule decides. A
construct without a rule in any layer cannot be written.
-/

namespace SqlWright

/-- Clauses that limit the rows of a select. -/
inductive PagingClause where
  /-- `LIMIT n OFFSET m` at the end. -/
  | limitOffset
  /-- `OFFSET m ROWS FETCH NEXT n ROWS ONLY` at the end. -/
  | offsetFetch
  /-- `TOP (n)` in front of the columns, and no offset. -/
  | top
  /-- None. -/
  | unsupported
  deriving DecidableEq

namespace PagingClause

/-- Name in documents. -/
def name : PagingClause → String
  | limitOffset => "limit_offset"
  | offsetFetch => "offset_fetch"
  | top => "top"
  | unsupported => "unsupported"

/-- Clause that has the name. -/
def ofName? (s : String) : Option PagingClause :=
  [limitOffset, offsetFetch, top, unsupported].find? (·.name == s)

/-- Form of the name in messages. -/
def title (p : PagingClause) : String := Text.capitalized p.name

end PagingClause

/-- Place and text of a row lock. -/
inductive LockClause where
  /-- After the whole select. -/
  | suffix (text : String)
  /-- After each table of the select. -/
  | tableHint (text : String)
  deriving DecidableEq

/-- Select without a row source. -/
inductive Fromless where
  /-- There is no FROM. -/
  | omitted
  /-- The rows of a table with one row stand in. -/
  | table (name : String)
  deriving DecidableEq

/-- Rules of one layer. -/
structure Layer where
  name : String := ""
  quoteIdentifier : Option (String → String) := none
  stringLiteral : Option (String → String) := none
  booleanLiteral : Option (Bool → String) := none
  dateTimeLiteral : Option (Calendar.DateTime → String) := none
  dateLiteral : Option (Calendar.Date → String) := none
  parameterMark : Option String := none
  functions : ScalarFunction → Option Template := fun _ ↦ none
  aggregates : AggregateKind → Option String := fun _ ↦ none
  operators : BinaryOp → Option Template := fun _ ↦ none
  paging : Option PagingClause := none
  /-- The rule may refuse a lock. -/
  lock : Option (Lock → Option LockClause) := none
  tableAlias : Option String := none
  fromless : Option Fromless := none
  nullsOrdering : Option Bool := none
  windowFunctions : Option Bool := none
  /-- The rule may leave the fill factor out. -/
  fillFactor : Option (UInt8 → Option String) := none
  /-- Ordering written where an offset needs one and the select has none. -/
  offsetOrdering : Option String := none

/-- Spelling of one version of a server: its layers, the most general first. -/
structure Spelling where
  layers : List Layer

namespace Spelling

/-- Name of the latest layer. -/
def name (s : Spelling) : String :=
  match s.layers.getLast? with
  | some layer => layer.name
  | none => "empty"

/-- Rule of the latest layer that has it. -/
def resolve {α : Type} (s : Spelling) (rule : Rule) (pick : Layer → Option α) :
    Except Error α :=
  match s.layers.reverse.findSome? pick with
  | some a => .ok a
  | none => .error (.missingRule s.name rule)

/-- Failure for a feature that the server does not have. -/
def unsupported (s : Spelling) (feature : String) : Error := .unsupported feature s.name

/-- Identifier in quotes. -/
def quoteIdentifier (s : Spelling) (name : String) : Except Error String :=
  return (← s.resolve .identifierQuoting (·.quoteIdentifier)) name

/-- String in quotes. -/
def stringLiteral (s : Spelling) (value : String) : Except Error String :=
  return (← s.resolve .stringLiteral (·.stringLiteral)) value

/-- Floating point number with a point. -/
def floatLiteral (value : Decimal.Binary64) : Except Error String :=
  if value.isFinite then
    let text := value.text
    .ok (if text.toList.contains '.' then text else text ++ ".0")
  else .error (.notFinite value)

/-- Text of a constant. -/
def literal (s : Spelling) : Literal → Except Error String
  | .boolean b => return (← s.resolve .booleanLiteral (·.booleanLiteral)) b
  | .integer i => return Text.ofInt i.toInt
  | .float x => floatLiteral x
  | .string t => s.stringLiteral t
  | .dateTime t => return (← s.resolve .dateTimeLiteral (·.dateTimeLiteral)) t
  | .date d => return (← s.resolve .dateLiteral (·.dateLiteral)) d

/-- Mark in front of the names of parameters and variables. -/
def parameterMark (s : Spelling) : Except Error String :=
  s.resolve .parameterMark (·.parameterMark)

/-- Template of a function. -/
def functionTemplate (s : Spelling) (f : ScalarFunction) : Except Error Template :=
  s.resolve (.function f) (·.functions f)

/-- Name of an aggregate function. -/
def aggregate (s : Spelling) (kind : AggregateKind) : Except Error String :=
  s.resolve (.aggregate kind) (·.aggregates kind)

/-- Template of an operator. -/
def operatorTemplate (s : Spelling) (op : BinaryOp) : Except Error Template :=
  s.resolve (.operator op) (·.operators op)

/-- Clauses that limit rows. -/
def paging (s : Spelling) : Except Error PagingClause := s.resolve .paging (·.paging)

/-- Clause of a row lock. -/
def lock (s : Spelling) (l : Lock) : Except Error LockClause := do
  match (← s.resolve .lock (·.lock)) l with
  | some clause => return clause
  | none => throw (s.unsupported s!"{l.mode.title} lock with {l.behavior.title}")

/-- Text in front of the alias of a row source. -/
def tableAlias (s : Spelling) : Except Error String := s.resolve .tableAlias (·.tableAlias)

/-- Select without a row source. -/
def fromless (s : Spelling) : Except Error Fromless := s.resolve .fromless (·.fromless)

/-- Whether an ordering can say where NULL goes. -/
def nullsOrdering (s : Spelling) : Except Error Bool :=
  s.resolve .nullsOrdering (·.nullsOrdering)

/-- Whether rows can be numbered. -/
def windowFunctions (s : Spelling) : Except Error Bool :=
  s.resolve .windowFunctions (·.windowFunctions)

/-- Ordering written where an offset needs one and the select has none. -/
def offsetOrdering (s : Spelling) : Except Error String :=
  s.resolve .offsetOrdering (·.offsetOrdering)

/-- Clause of a fill factor; none if the server has no such clause. -/
def fillFactor (s : Spelling) (percent : UInt8) : Except Error (Option String) :=
  return (← s.resolve .fillFactor (·.fillFactor)) percent

end Spelling

/-- Names that a server gives to types, in layers like a spelling. -/
structure TypeNames where
  dialect : String
  layers : List (SqlType → Option String)

/-- Name of a type in the latest layer that names it. -/
def TypeNames.find (names : TypeNames) (type : SqlType) : Except Error String :=
  match names.layers.reverse.findSome? (· type) with
  | some name => .ok name
  | none => .error (.missingRule names.dialect (.typeName type))

end SqlWright
