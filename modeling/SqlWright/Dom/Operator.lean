import SqlWright.Text.Capitalized

/-!
# Operators, functions and options of statements

The closed sets of words that nodes of a statement carry. `ofName?_name` says of
each set that its names tell its values apart.
-/

namespace SqlWright

/-- Operator between two operands. -/
inductive BinaryOp where
  | eq
  | notEq
  | lt
  | ltEq
  | gt
  | gtEq
  | and
  | or
  | plus
  | minus
  | multiply
  | divide
  | modulo
  | concat
  | like
  | isIn
  | notIn
  deriving DecidableEq

namespace BinaryOp

/-- Every value, in the order of definition. -/
def all : List BinaryOp :=
  [eq, notEq, lt, ltEq, gt, gtEq, and, or, plus, minus, multiply, divide, modulo, concat,
   like, isIn, notIn]

/-- Name of the value in documents. -/
def name : BinaryOp → String
  | eq => "eq"
  | notEq => "not_eq"
  | lt => "lt"
  | ltEq => "lt_eq"
  | gt => "gt"
  | gtEq => "gt_eq"
  | and => "and"
  | or => "or"
  | plus => "plus"
  | minus => "minus"
  | multiply => "multiply"
  | divide => "divide"
  | modulo => "modulo"
  | concat => "concat"
  | like => "like"
  | isIn => "in"
  | notIn => "not_in"

/-- Value that has the name. -/
def ofName? (s : String) : Option BinaryOp := all.find? (·.name == s)

/-- Form of the name in messages. -/
def title (x : BinaryOp) : String := Text.capitalized x.name

/-- No two values share a name. -/
theorem ofName?_name (x : BinaryOp) : ofName? x.name = some x := by
  cases x <;> decide +kernel

end BinaryOp

/-- Operator with one operand. -/
inductive UnaryOp where
  | negation
  | negate
  | isNull
  | isNotNull
  | existence
  deriving DecidableEq

namespace UnaryOp

/-- Every value, in the order of definition. -/
def all : List UnaryOp :=
  [negation, negate, isNull, isNotNull, existence]

/-- Name of the value in documents. -/
def name : UnaryOp → String
  | negation => "not"
  | negate => "negate"
  | isNull => "is_null"
  | isNotNull => "is_not_null"
  | existence => "exists"

/-- Value that has the name. -/
def ofName? (s : String) : Option UnaryOp := all.find? (·.name == s)

/-- No two values share a name. -/
theorem ofName?_name (x : UnaryOp) : ofName? x.name = some x := by
  cases x <;> decide +kernel

end UnaryOp

/-- Function that every server has under some spelling. -/
inductive ScalarFunction where
  | abs
  | ceiling
  | floor
  | exp
  | log
  | log10
  | power
  | sign
  | sqrt
  | square
  | round
  | roundDigits
  | truncate
  | acos
  | asin
  | atan
  | atan2
  | cos
  | cot
  | sin
  | tan
  | degrees
  | radians
  | concat
  | length
  | lower
  | upper
  | trim
  | substring
  | replace
  | position
  | currentDate
  | currentTimestamp
  | dateTimeConstruct
  | dateTimeExtractYear
  | dateTimeExtractMonth
  | dateTimeExtractDay
  | dateTimeExtractHour
  | dateTimeExtractMinute
  | dateTimeExtractSecond
  | dateTimeExtractDayOfWeek
  | dateTimeExtractDayOfYear
  | dateTimeTruncate
  | dateTimeAddYears
  | dateTimeAddMonths
  | dateTimeAddDays
  | intervalConstruct
  | intervalToMilliseconds
  | coalesce
  deriving DecidableEq

namespace ScalarFunction

/-- Every value, in the order of definition. -/
def all : List ScalarFunction :=
  [abs, ceiling, floor, exp, log, log10, power, sign, sqrt, square, round, roundDigits,
   truncate, acos, asin, atan, atan2, cos, cot, sin, tan, degrees, radians, concat, length,
   lower, upper, trim, substring, replace, position, currentDate, currentTimestamp,
   dateTimeConstruct, dateTimeExtractYear, dateTimeExtractMonth, dateTimeExtractDay,
   dateTimeExtractHour, dateTimeExtractMinute, dateTimeExtractSecond,
   dateTimeExtractDayOfWeek, dateTimeExtractDayOfYear, dateTimeTruncate, dateTimeAddYears,
   dateTimeAddMonths, dateTimeAddDays, intervalConstruct, intervalToMilliseconds, coalesce]

/-- Name of the value in documents. -/
def name : ScalarFunction → String
  | abs => "abs"
  | ceiling => "ceiling"
  | floor => "floor"
  | exp => "exp"
  | log => "log"
  | log10 => "log10"
  | power => "power"
  | sign => "sign"
  | sqrt => "sqrt"
  | square => "square"
  | round => "round"
  | roundDigits => "round_digits"
  | truncate => "truncate"
  | acos => "acos"
  | asin => "asin"
  | atan => "atan"
  | atan2 => "atan2"
  | cos => "cos"
  | cot => "cot"
  | sin => "sin"
  | tan => "tan"
  | degrees => "degrees"
  | radians => "radians"
  | concat => "concat"
  | length => "length"
  | lower => "lower"
  | upper => "upper"
  | trim => "trim"
  | substring => "substring"
  | replace => "replace"
  | position => "position"
  | currentDate => "current_date"
  | currentTimestamp => "current_timestamp"
  | dateTimeConstruct => "date_time_construct"
  | dateTimeExtractYear => "date_time_extract_year"
  | dateTimeExtractMonth => "date_time_extract_month"
  | dateTimeExtractDay => "date_time_extract_day"
  | dateTimeExtractHour => "date_time_extract_hour"
  | dateTimeExtractMinute => "date_time_extract_minute"
  | dateTimeExtractSecond => "date_time_extract_second"
  | dateTimeExtractDayOfWeek => "date_time_extract_day_of_week"
  | dateTimeExtractDayOfYear => "date_time_extract_day_of_year"
  | dateTimeTruncate => "date_time_truncate"
  | dateTimeAddYears => "date_time_add_years"
  | dateTimeAddMonths => "date_time_add_months"
  | dateTimeAddDays => "date_time_add_days"
  | intervalConstruct => "interval_construct"
  | intervalToMilliseconds => "interval_to_milliseconds"
  | coalesce => "coalesce"

/-- Value that has the name. -/
def ofName? (s : String) : Option ScalarFunction := all.find? (·.name == s)

/-- Form of the name in messages. -/
def title (x : ScalarFunction) : String := Text.capitalized x.name

/-- No two values share a name. -/
theorem ofName?_name (x : ScalarFunction) : ofName? x.name = some x := by
  cases x <;> decide +kernel

end ScalarFunction

/-- Function of the rows of a group. -/
inductive AggregateKind where
  | count
  | sum
  | avg
  | min
  | max
  deriving DecidableEq

namespace AggregateKind

/-- Every value, in the order of definition. -/
def all : List AggregateKind :=
  [count, sum, avg, min, max]

/-- Name of the value in documents. -/
def name : AggregateKind → String
  | count => "count"
  | sum => "sum"
  | avg => "avg"
  | min => "min"
  | max => "max"

/-- Value that has the name. -/
def ofName? (s : String) : Option AggregateKind := all.find? (·.name == s)

/-- Form of the name in messages. -/
def title (x : AggregateKind) : String := Text.capitalized x.name

/-- No two values share a name. -/
theorem ofName?_name (x : AggregateKind) : ofName? x.name = some x := by
  cases x <;> decide +kernel

end AggregateKind

/-- Way that two row sources are joined. -/
inductive JoinKind where
  | inner
  | leftOuter
  | cross
  deriving DecidableEq

namespace JoinKind

/-- Every value, in the order of definition. -/
def all : List JoinKind :=
  [inner, leftOuter, cross]

/-- Name of the value in documents. -/
def name : JoinKind → String
  | inner => "inner"
  | leftOuter => "left_outer"
  | cross => "cross"

/-- Value that has the name. -/
def ofName? (s : String) : Option JoinKind := all.find? (·.name == s)

/-- No two values share a name. -/
theorem ofName?_name (x : JoinKind) : ofName? x.name = some x := by
  cases x <;> decide +kernel

end JoinKind

/-- Strength of a row lock. -/
inductive LockMode where
  | shared
  | update
  | exclusive
  deriving DecidableEq

namespace LockMode

/-- Every value, in the order of definition. -/
def all : List LockMode :=
  [shared, update, exclusive]

/-- Name of the value in documents. -/
def name : LockMode → String
  | shared => "shared"
  | update => "update"
  | exclusive => "exclusive"

/-- Value that has the name. -/
def ofName? (s : String) : Option LockMode := all.find? (·.name == s)

/-- Form of the name in messages. -/
def title (x : LockMode) : String := Text.capitalized x.name

/-- No two values share a name. -/
theorem ofName?_name (x : LockMode) : ofName? x.name = some x := by
  cases x <;> decide +kernel

end LockMode

/-- What happens when a row is locked already. -/
inductive LockBehavior where
  | wait
  | noWait
  | skipLocked
  deriving DecidableEq

namespace LockBehavior

/-- Every value, in the order of definition. -/
def all : List LockBehavior :=
  [wait, noWait, skipLocked]

/-- Name of the value in documents. -/
def name : LockBehavior → String
  | wait => "wait"
  | noWait => "no_wait"
  | skipLocked => "skip_locked"

/-- Value that has the name. -/
def ofName? (s : String) : Option LockBehavior := all.find? (·.name == s)

/-- Form of the name in messages. -/
def title (x : LockBehavior) : String := Text.capitalized x.name

/-- No two values share a name. -/
theorem ofName?_name (x : LockBehavior) : ofName? x.name = some x := by
  cases x <;> decide +kernel

end LockBehavior

/-- Row lock that a select asks for. -/
structure Lock where
  mode : LockMode
  behavior : LockBehavior
  deriving DecidableEq

end SqlWright
