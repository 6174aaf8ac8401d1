import SqlWright.Server.Version
import SqlWright.Spelling.Ansi

/-!
# Spelling of PostgreSQL

Layers of the versions 8.0 to 8.4; later versions are written as 8.4 is.
-/

namespace SqlWright.Spelling.PostgreSql

/-- Templates of functions. -/
def functions : ScalarFunction → Option Template
  | .ceiling => some (.call "CEIL")
  | .log => some (.call "LN")
  | .log10 => some (.call "LOG")
  | .truncate => some (.call "TRUNC")
  | .atan2 => some (.call "ATAN2")
  | .cot => some (.call "COT")
  | .degrees => some (.call "DEGREES")
  | .radians => some (.call "RADIANS")
  | .concat => some (.separated "||")
  | .length => some (.call "LENGTH")
  | .trim => some (.call "TRIM")
  | .substring => some (.call "SUBSTR")
  | .position => some (.pattern "POSITION({1} IN {0})")
  | .currentDate => some (.pattern "CURRENT_DATE")
  | .dateTimeConstruct =>
    some (.pattern "TO_DATE({0} || '-' || {1} || '-' || {2}, 'YYYY-MM-DD')")
  | .dateTimeExtractYear => some (.pattern "EXTRACT(YEAR FROM {0})")
  | .dateTimeExtractMonth => some (.pattern "EXTRACT(MONTH FROM {0})")
  | .dateTimeExtractDay => some (.pattern "EXTRACT(DAY FROM {0})")
  | .dateTimeExtractHour => some (.pattern "EXTRACT(HOUR FROM {0})")
  | .dateTimeExtractMinute => some (.pattern "EXTRACT(MINUTE FROM {0})")
  | .dateTimeExtractSecond => some (.pattern "EXTRACT(SECOND FROM {0})")
  | .dateTimeExtractDayOfWeek => some (.pattern "EXTRACT(DOW FROM {0})")
  | .dateTimeExtractDayOfYear => some (.pattern "EXTRACT(DOY FROM {0})")
  | .dateTimeTruncate => some (.pattern "DATE_TRUNC('day', {0})")
  | .dateTimeAddYears => some (.pattern "({0} + {1} * INTERVAL '1 year')")
  | .dateTimeAddMonths => some (.pattern "({0} + {1} * INTERVAL '1 month')")
  | .dateTimeAddDays => some (.pattern "({0} + {1} * INTERVAL '1 day')")
  | .intervalConstruct => some (.pattern "({0} * INTERVAL '1 millisecond')")
  | .intervalToMilliseconds => some (.pattern "(EXTRACT(EPOCH FROM {0}) * 1000)")
  | _ => none

/-- Row lock of a strength. -/
def lockText : LockMode → String
  | .shared => " FOR SHARE"
  | .update | .exclusive => " FOR UPDATE"

/-- Row locks before 8.1, which always wait. -/
def waitingLock (l : Lock) : Option LockClause :=
  match l.behavior with
  | .wait => some (.suffix (lockText l.mode))
  | .noWait | .skipLocked => none

/-- Row locks from 8.1 on. -/
def lock (l : Lock) : Option LockClause :=
  match l.behavior with
  | .wait => some (.suffix (lockText l.mode))
  | .noWait => some (.suffix (lockText l.mode ++ " NOWAIT"))
  | .skipLocked => none

/-- Names of types. -/
def typeName : SqlType → Option String
  | .boolean => some "boolean"
  | .int16 => some "smallint"
  | .int32 => some "integer"
  | .int64 => some "bigint"
  | .float32 => some "real"
  | .float64 => some "double precision"
  | .decimal precision scale =>
    some s!"numeric({precision.toNat.repr}, {scale.toNat.repr})"
  | .varChar (some length) => some s!"varchar({length.toNat.repr})"
  | .varChar none => some "text"
  | .dateTime => some "timestamp"
  | .date => some "date"
  | .guid => some "char(36)"
  | .binary => some "bytea"

/-- Names of types that 8.3 brought. -/
def newerTypeName : SqlType → Option String
  | .guid => some "uuid"
  | _ => none

/-- Layer of 8.0. -/
def v80 : Layer where
  name := "PostgreSQL 8.0"
  quoteIdentifier := some Quoting.doubleQuotes
  stringLiteral := some Quoting.backslashString
  dateTimeLiteral := some fun t ↦ "TIMESTAMP '" ++ t.milliText " " ++ "'"
  dateLiteral := some fun d ↦ "DATE '" ++ d.text ++ "'"
  functions := functions
  paging := some .limitOffset
  lock := some waitingLock
  fromless := some .omitted
  fillFactor := some fun _ ↦ none

/-- Layer of 8.1: strings with escapes are marked, and locks need not wait. -/
def v81 : Layer where
  name := "PostgreSQL 8.1"
  stringLiteral := some Quoting.escapeString
  lock := some lock

/-- Layer of 8.2: indexes have a fill factor. -/
def v82 : Layer where
  name := "PostgreSQL 8.2"
  fillFactor := some fun percent ↦ some s!" WITH (FILLFACTOR = {percent.toNat.repr})"

/-- Layer of 8.3: orderings place NULL. -/
def v83 : Layer where
  name := "PostgreSQL 8.3"
  nullsOrdering := some true

/-- Layer of 8.4: rows are numbered. -/
def v84 : Layer where
  name := "PostgreSQL 8.4"
  windowFunctions := some true

/-- Spelling of a version. -/
def spelling (v : Version) : Spelling where
  layers :=
    [ansi, v80] ++
    (if v.isSince ⟨8, 1⟩ then [v81] else []) ++
    (if v.isSince ⟨8, 2⟩ then [v82] else []) ++
    (if v.isSince ⟨8, 3⟩ then [v83] else []) ++
    (if v.isSince ⟨8, 4⟩ then [v84] else [])

/-- Names of types in a version. -/
def typeNames (v : Version) : TypeNames where
  dialect := "PostgreSQL"
  layers := typeName :: if v.isSince ⟨8, 3⟩ then [newerTypeName] else []

end SqlWright.Spelling.PostgreSql
