import SqlWright.Spelling.Layer
import SqlWright.Spelling.Quoting

/-!
# Standard spelling

The rules that the dialects have in common.
-/

namespace SqlWright.Spelling

/-- Pattern of a binary operator. -/
def ansiOperator : BinaryOp → String
  | .eq => "{0} = {1}"
  | .notEq => "{0} <> {1}"
  | .lt => "{0} < {1}"
  | .ltEq => "{0} <= {1}"
  | .gt => "{0} > {1}"
  | .gtEq => "{0} >= {1}"
  | .and => "{0} AND {1}"
  | .or => "{0} OR {1}"
  | .plus => "{0} + {1}"
  | .minus => "{0} - {1}"
  | .multiply => "{0} * {1}"
  | .divide => "{0} / {1}"
  | .modulo => "{0} % {1}"
  | .concat => "{0} || {1}"
  | .like => "{0} LIKE {1}"
  | .isIn => "{0} IN {1}"
  | .notIn => "{0} NOT IN {1}"

/-- Template of the functions that are spelled alike everywhere. -/
def ansiFunction : ScalarFunction → Option Template
  | .abs => some (.call "ABS")
  | .floor => some (.call "FLOOR")
  | .exp => some (.call "EXP")
  | .power => some (.call "POWER")
  | .sign => some (.call "SIGN")
  | .sqrt => some (.call "SQRT")
  | .square => some (.pattern "({0} * {0})")
  | .round => some (.call "ROUND")
  | .roundDigits => some (.call "ROUND")
  | .acos => some (.call "ACOS")
  | .asin => some (.call "ASIN")
  | .atan => some (.call "ATAN")
  | .cos => some (.call "COS")
  | .sin => some (.call "SIN")
  | .tan => some (.call "TAN")
  | .lower => some (.call "LOWER")
  | .upper => some (.call "UPPER")
  | .replace => some (.call "REPLACE")
  | .coalesce => some (.call "COALESCE")
  | .currentTimestamp => some (.pattern "CURRENT_TIMESTAMP")
  | _ => none

/-- Name of an aggregate function. -/
def ansiAggregate : AggregateKind → String
  | .count => "COUNT"
  | .sum => "SUM"
  | .avg => "AVG"
  | .min => "MIN"
  | .max => "MAX"

/-- Layer below every dialect. -/
def ansi : Layer where
  name := "ANSI"
  quoteIdentifier := some Quoting.doubleQuotes
  stringLiteral := some Quoting.plainString
  booleanLiteral := some fun b ↦ if b then "TRUE" else "FALSE"
  parameterMark := some "@"
  functions := ansiFunction
  aggregates := fun kind ↦ some (ansiAggregate kind)
  operators := fun op ↦ some (.pattern (ansiOperator op))
  tableAlias := some " AS "
  fromless := some .omitted
  nullsOrdering := some false
  windowFunctions := some false
  offsetOrdering := some ""

end SqlWright.Spelling
