import SqlWright.Server.Version

/-!
# Dialects

The families of servers that statements are written for.
-/

namespace SqlWright

/-- Family of servers. -/
inductive Dialect where
  | postgreSql
  | sqlServer
  | oracle
  deriving DecidableEq

namespace Dialect

/-- Name in documents. -/
def name : Dialect → String
  | postgreSql => "postgresql"
  | sqlServer => "sqlserver"
  | oracle => "oracle"

/-- Name that people read. -/
def title : Dialect → String
  | postgreSql => "PostgreSQL"
  | sqlServer => "SQL Server"
  | oracle => "Oracle"

/-- Dialect that has the name in documents. -/
def ofName? (s : String) : Option Dialect := [postgreSql, sqlServer, oracle].find? (·.name == s)

/-- Dialect that a person names: in any case, with white space around it, by its usual short
names too. -/
def ofText (s : String) : Except Error Dialect :=
  match String.ofList ((Text.trim s.toList).map Char.toLower) with
  | "postgresql" | "postgres" | "pg" => .ok postgreSql
  | "sqlserver" | "mssql" => .ok sqlServer
  | "oracle" => .ok oracle
  | _ => .error (.unsupportedServer s)

/-- Oldest supported version. -/
def oldest : Dialect → Version
  | postgreSql => ⟨8, 0⟩
  | sqlServer => ⟨9, 0⟩
  | oracle => ⟨9, 0⟩

end Dialect

end SqlWright
