import SqlWright.Server.Dialect
import SqlWright.Spelling.Oracle
import SqlWright.Spelling.PostgreSql
import SqlWright.Spelling.SqlServer

/-!
# Spellings of the dialects

The spelling and the names of types of each version of each dialect.
-/

namespace SqlWright.Dialect

/-- Spelling of a version. -/
def spelling : Dialect → Version → Spelling
  | postgreSql => Spelling.PostgreSql.spelling
  | sqlServer => Spelling.SqlServer.spelling
  | oracle => Spelling.Oracle.spelling

/-- Names of types in a version. -/
def typeNames : Dialect → Version → TypeNames
  | postgreSql => Spelling.PostgreSql.typeNames
  | sqlServer => Spelling.SqlServer.typeNames
  | oracle => Spelling.Oracle.typeNames

end SqlWright.Dialect
