import SqlWright.Server.Version
import SqlWright.Spelling.Ansi

/-!
# Spelling of SQL Server

Layers of the versions 9, 10 and 11; later versions are written as 11 is.
-/

namespace SqlWright.Spelling.SqlServer

/-- Templates of functions. Intervals are counts of milliseconds. -/
def functions : ScalarFunction → Option Template
  | .ceiling => some (.call "CEILING")
  | .log => some (.call "LOG")
  | .log10 => some (.call "LOG10")
  | .square => some (.call "SQUARE")
  | .truncate => some (.pattern "ROUND({0}, 0, 1)")
  | .atan2 => some (.call "ATN2")
  | .cot => some (.call "COT")
  | .degrees => some (.call "DEGREES")
  | .radians => some (.call "RADIANS")
  | .concat => some (.separated "+")
  | .length => some (.call "LEN")
  | .trim => some (.pattern "LTRIM(RTRIM({0}))")
  | .substring => some (.call "SUBSTRING")
  | .position => some (.pattern "CHARINDEX({1}, {0})")
  | .currentDate => some (.pattern "DATEADD(dd, DATEDIFF(dd, 0, GETDATE()), 0)")
  | .currentTimestamp => some (.pattern "GETDATE()")
  | .dateTimeConstruct => some (.pattern
    "DATEADD(dd, {2} - 1, DATEADD(mm, {1} - 1, DATEADD(yy, {0} - 1900, 0)))")
  | .dateTimeExtractYear => some (.pattern "DATEPART(year, {0})")
  | .dateTimeExtractMonth => some (.pattern "DATEPART(month, {0})")
  | .dateTimeExtractDay => some (.pattern "DATEPART(day, {0})")
  | .dateTimeExtractHour => some (.pattern "DATEPART(hour, {0})")
  | .dateTimeExtractMinute => some (.pattern "DATEPART(minute, {0})")
  | .dateTimeExtractSecond => some (.pattern "DATEPART(second, {0})")
  | .dateTimeExtractDayOfWeek => some (.pattern "(DATEPART(weekday, {0}) - 1)")
  | .dateTimeExtractDayOfYear => some (.pattern "DATEPART(dayofyear, {0})")
  | .dateTimeTruncate => some (.pattern "DATEADD(dd, DATEDIFF(dd, 0, {0}), 0)")
  | .dateTimeAddYears => some (.pattern "DATEADD(year, {1}, {0})")
  | .dateTimeAddMonths => some (.pattern "DATEADD(month, {1}, {0})")
  | .dateTimeAddDays => some (.pattern "DATEADD(day, {1}, {0})")
  | .intervalConstruct => some (.pattern "CAST({0} AS bigint)")
  | .intervalToMilliseconds => some (.pattern "{0}")
  | _ => none

/-- Templates of functions that 10 brought. -/
def functions10 : ScalarFunction → Option Template
  | .currentDate => some (.pattern "CAST(GETDATE() AS date)")
  | .dateTimeTruncate => some (.pattern "CAST({0} AS date)")
  | _ => none

/-- Templates of functions that 11 brought. -/
def functions11 : ScalarFunction → Option Template
  | .dateTimeConstruct => some (.call "DATEFROMPARTS")
  | _ => none

/-- Hints of a row lock. -/
def lockHints (l : Lock) : List String :=
  (match l.mode with
    | .shared => "HOLDLOCK"
    | .update => "UPDLOCK"
    | .exclusive => "XLOCK") :: "ROWLOCK" ::
  (match l.behavior with
    | .wait => []
    | .noWait => ["NOWAIT"]
    | .skipLocked => ["READPAST"])

/-- Row locks, which are hints of tables. -/
def lock (l : Lock) : Option LockClause :=
  some (.tableHint (" WITH (" ++ ", ".intercalate (lockHints l) ++ ")"))

/-- Names of types. -/
def typeName : SqlType → Option String
  | .boolean => some "bit"
  | .int16 => some "smallint"
  | .int32 => some "int"
  | .int64 => some "bigint"
  | .float32 => some "real"
  | .float64 => some "float"
  | .decimal precision scale =>
    some s!"decimal({precision.toNat.repr}, {scale.toNat.repr})"
  | .varChar (some length) => some s!"nvarchar({length.toNat.repr})"
  | .varChar none => some "nvarchar(max)"
  | .dateTime | .date => some "datetime"
  | .guid => some "uniqueidentifier"
  | .binary => some "varbinary(max)"

/-- Names of types that 10 brought. -/
def newerTypeName : SqlType → Option String
  | .date => some "date"
  | .dateTime => some "datetime2"
  | _ => none

/-- Layer of 9. -/
def v9 : Layer where
  name := "SQL Server 9"
  quoteIdentifier := some Quoting.brackets
  stringLiteral := some Quoting.nationalString
  booleanLiteral := some fun b ↦ if b then "1" else "0"
  dateTimeLiteral := some fun t ↦ "CONVERT(datetime, '" ++ t.milliText "T" ++ "', 126)"
  dateLiteral := some fun d ↦ "CONVERT(datetime, '" ++ d.text ++ "', 126)"
  functions := functions
  aggregates := fun
    | .count => some "COUNT_BIG"
    | _ => none
  operators := fun
    | .concat => some (.pattern "{0} + {1}")
    | _ => none
  paging := some .top
  lock := some lock
  fromless := some .omitted
  windowFunctions := some true
  fillFactor := some fun percent ↦ some s!" WITH (FILLFACTOR = {percent.toNat.repr})"

/-- Layer of 10: dates have a type of their own. -/
def v10 : Layer where
  name := "SQL Server 10"
  dateLiteral := some fun d ↦ "CAST('" ++ d.text ++ "' AS date)"
  functions := functions10

/-- Layer of 11: rows are left out at the front, of an ordering that is always written. -/
def v11 : Layer where
  name := "SQL Server 11"
  functions := functions11
  paging := some .offsetFetch
  offsetOrdering := some " ORDER BY (SELECT NULL)"

/-- Spelling of a version. -/
def spelling (v : Version) : Spelling where
  layers :=
    [ansi, v9] ++
    (if v.isSince ⟨10, 0⟩ then [v10] else []) ++
    (if v.isSince ⟨11, 0⟩ then [v11] else [])

/-- Names of types in a version. -/
def typeNames (v : Version) : TypeNames where
  dialect := "SQL Server"
  layers := typeName :: if v.isSince ⟨10, 0⟩ then [newerTypeName] else []

end SqlWright.Spelling.SqlServer
