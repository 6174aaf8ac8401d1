import SqlWright.Server.Version
import SqlWright.Spelling.Ansi

/-!
# Spelling of Oracle

Layers of the versions 9 to 12; later versions are written as 12 is.
-/

namespace SqlWright.Spelling.Oracle

/-- Templates of functions. -/
def functions : ScalarFunction → Option Template
  | .ceiling => some (.call "CEIL")
  | .log => some (.call "LN")
  | .log10 => some (.pattern "LOG(10, {0})")
  | .truncate => some (.call "TRUNC")
  | .atan2 => some (.call "ATAN2")
  | .cot => some (.pattern "(1 / TAN({0}))")
  | .degrees => some (.pattern "({0} * 180 / ACOS(-1))")
  | .radians => some (.pattern "({0} * ACOS(-1) / 180)")
  | .concat => some (.separated "||")
  | .length => some (.call "LENGTH")
  | .trim => some (.call "TRIM")
  | .substring => some (.call "SUBSTR")
  | .position => some (.pattern "INSTR({0}, {1})")
  | .currentDate => some (.pattern "TRUNC(SYSDATE)")
  | .currentTimestamp => some (.pattern "SYSTIMESTAMP")
  | .dateTimeConstruct =>
    some (.pattern "TO_DATE({0} || '-' || {1} || '-' || {2}, 'YYYY-MM-DD')")
  | .dateTimeExtractYear => some (.pattern "EXTRACT(YEAR FROM {0})")
  | .dateTimeExtractMonth => some (.pattern "EXTRACT(MONTH FROM {0})")
  | .dateTimeExtractDay => some (.pattern "EXTRACT(DAY FROM {0})")
  | .dateTimeExtractHour => some (.pattern "EXTRACT(HOUR FROM CAST({0} AS TIMESTAMP))")
  | .dateTimeExtractMinute => some (.pattern "EXTRACT(MINUTE FROM CAST({0} AS TIMESTAMP))")
  | .dateTimeExtractSecond => some (.pattern "EXTRACT(SECOND FROM CAST({0} AS TIMESTAMP))")
  | .dateTimeExtractDayOfWeek => some (.pattern "(TO_NUMBER(TO_CHAR({0}, 'D')) - 1)")
  | .dateTimeExtractDayOfYear => some (.pattern "TO_NUMBER(TO_CHAR({0}, 'DDD'))")
  | .dateTimeTruncate => some (.call "TRUNC")
  | .dateTimeAddYears => some (.pattern "ADD_MONTHS({0}, {1} * 12)")
  | .dateTimeAddMonths => some (.pattern "ADD_MONTHS({0}, {1})")
  | .dateTimeAddDays => some (.pattern "({0} + {1})")
  | .intervalConstruct => some (.pattern "NUMTODSINTERVAL({0} / 1000, 'SECOND')")
  | .intervalToMilliseconds => some (.pattern
    ("(EXTRACT(DAY FROM {0}) * 86400000 + EXTRACT(HOUR FROM {0}) * 3600000 " ++
      "+ EXTRACT(MINUTE FROM {0}) * 60000 + EXTRACT(SECOND FROM {0}) * 1000)"))
  | _ => none

/-- Row locks before 11, which do not pass over locked rows. -/
def lock (l : Lock) : Option LockClause :=
  match l.mode, l.behavior with
  | .shared, _ | _, .skipLocked => none
  | _, .wait => some (.suffix " FOR UPDATE")
  | _, .noWait => some (.suffix " FOR UPDATE NOWAIT")

/-- Row locks from 11 on. -/
def lock11 (l : Lock) : Option LockClause :=
  match l.mode, l.behavior with
  | .shared, _ => none
  | _, .skipLocked => some (.suffix " FOR UPDATE SKIP LOCKED")
  | _, _ => lock l

/-- Share of a page that is kept free, in place of the share that is filled. -/
def freeSpace (percent : UInt8) : String :=
  " PCTFREE " ++ (100 - min percent.toNat 100).repr

/-- Names of types. -/
def typeName : SqlType → Option String
  | .boolean => some "NUMBER(1)"
  | .int16 => some "NUMBER(5)"
  | .int32 => some "NUMBER(10)"
  | .int64 => some "NUMBER(20)"
  | .float32 => some "FLOAT(24)"
  | .float64 => some "FLOAT(53)"
  | .decimal precision scale => some s!"NUMBER({precision.toNat.repr}, {scale.toNat.repr})"
  | .varChar (some length) => some s!"NVARCHAR2({length.toNat.repr})"
  | .varChar none => some "NCLOB"
  | .dateTime => some "TIMESTAMP"
  | .date => some "DATE"
  | .guid => some "RAW(16)"
  | .binary => some "BLOB"

/-- Names of types that 10 brought. -/
def newerTypeName : SqlType → Option String
  | .float32 => some "BINARY_FLOAT"
  | .float64 => some "BINARY_DOUBLE"
  | _ => none

/-- Layer of 9. -/
def v9 : Layer where
  name := "Oracle 9"
  quoteIdentifier := some Quoting.doubleQuotes
  stringLiteral := some Quoting.plainString
  booleanLiteral := some fun b ↦ if b then "1" else "0"
  dateTimeLiteral := some fun t ↦ "TIMESTAMP '" ++ t.milliText " " ++ "'"
  dateLiteral := some fun d ↦ "DATE '" ++ d.text ++ "'"
  parameterMark := some ":"
  functions := functions
  operators := fun
    | .modulo => some (.call "MOD")
    | _ => none
  paging := some .unsupported
  lock := some lock
  tableAlias := some " "
  fromless := some (.table "DUAL")
  nullsOrdering := some true
  windowFunctions := some true
  fillFactor := some fun percent ↦ some (freeSpace percent)

/-- Layer of 10, which changes the names of types only. -/
def v10 : Layer where
  name := "Oracle 10"

/-- Layer of 11: locks pass over locked rows. -/
def v11 : Layer where
  name := "Oracle 11"
  lock := some lock11

/-- Layer of 12: rows are limited and left out at the front. -/
def v12 : Layer where
  name := "Oracle 12"
  paging := some .offsetFetch

/-- Spelling of a version. -/
def spelling (v : Version) : Spelling where
  layers :=
    [ansi, v9] ++
    (if v.isSince ⟨10, 0⟩ then [v10] else []) ++
    (if v.isSince ⟨11, 0⟩ then [v11] else []) ++
    (if v.isSince ⟨12, 0⟩ then [v12] else [])

/-- Names of types in a version. -/
def typeNames (v : Version) : TypeNames where
  dialect := "Oracle"
  layers := typeName :: if v.isSince ⟨10, 0⟩ then [newerTypeName] else []

end SqlWright.Spelling.Oracle
