import SqlWright.Json.Record
import SqlWright.Text.Numeral

/-!
# Connections

A saved connection says where a PostgreSQL server is and who logs in to it. Its
connection string is a list of keywords and quoted values. The password is read but
never written.
-/

namespace SqlWright

/-- How a connection is secured. -/
inductive TlsMode where
  | disable
  | prefer
  | require
  | verifyCa
  | verifyFull
  deriving DecidableEq

namespace TlsMode

/-- Every value, in the order of definition. -/
def all : List TlsMode := [disable, prefer, require, verifyCa, verifyFull]

/-- Name in settings. -/
def name : TlsMode → String
  | disable => "Disable"
  | prefer => "Prefer"
  | require => "Require"
  | verifyCa => "VerifyCa"
  | verifyFull => "VerifyFull"

/-- Value that has the name in settings. -/
def ofName? (s : String) : Option TlsMode := all.find? (·.name == s)

/-- Word in a connection string. -/
def keyword : TlsMode → String
  | disable => "disable"
  | prefer => "prefer"
  | require => "require"
  | verifyCa => "verify-ca"
  | verifyFull => "verify-full"

/-- Whether the certificate of the server is verified whatever else is said. -/
def isStrict (m : TlsMode) : Bool := m == verifyCa || m == verifyFull

/-- No two values share a name. -/
theorem ofName?_name (x : TlsMode) : ofName? x.name = some x := by
  cases x <;> decide +kernel

end TlsMode

/-- Saved connection. -/
structure Connection where
  name : String := "local"
  host : String := "localhost"
  port : UInt16 := 5432
  database : String := "postgres"
  username : String := "postgres"
  password : String := ""
  tlsMode : TlsMode := .prefer
  /-- Whether the certificate of the server counts even if it is not valid, unless the mode is
  strict. -/
  acceptsInvalidCertificates : Bool := false
  /-- File with further root certificates. -/
  certificatePath : Option String := none
  deriving DecidableEq

namespace Connection

/-- Characters of a value in which quotes and backslashes are escaped. -/
def escaped (cs : List Char) : List Char :=
  cs.flatMap fun c ↦ if c = '\\' ∨ c = '\x27' then ['\\', c] else [c]

/-- Value between single quotes. -/
def quotedValue (value : String) : String :=
  String.ofList ('\x27' :: (escaped value.toList ++ ['\x27']))

/-- Keywords of the connection and their texts, in order. -/
def keywords (c : Connection) : List (String × String) :=
  [("host", quotedValue c.host),
   ("port", c.port.toNat.repr),
   ("dbname", quotedValue c.database),
   ("user", quotedValue c.username),
   ("password", quotedValue c.password),
   ("sslmode", c.tlsMode.keyword),
   ("connect_timeout", "10")]

/-- Keywords with their texts, with blanks between. -/
def connectionString (c : Connection) : String :=
  " ".intercalate (c.keywords.map fun (key, text) ↦ key ++ "=" ++ text)

/-- Address of the connection for people. -/
def text (c : Connection) : String :=
  s!"{c.username}@{c.host}:{c.port.toNat.repr}/{c.database}"

/-- Path of the certificates that have to be read before the connection is opened. -/
def neededCertificates (c : Connection) : Option String :=
  if c.tlsMode = .disable then none
  else if c.acceptsInvalidCertificates && !c.tlsMode.isStrict then none
  else c.certificatePath

/-- Form of what is saved. -/
def toJson (c : Connection) : Json :=
  .ofFields [
    ("name", .ofString c.name),
    ("host", .ofString c.host),
    ("port", .ofNat c.port.toNat),
    ("database", .ofString c.database),
    ("username", .ofString c.username),
    ("ssl_mode", .ofString c.tlsMode.name),
    ("accept_invalid_certs", .bool c.acceptsInvalidCertificates),
    ("ca_cert_path", match c.certificatePath with
      | some path => .ofString path
      | none => .null)]

/-- Names of the fields. -/
def fields : List String :=
  ["name", "host", "port", "database", "username", "password", "ssl_mode",
   "accept_invalid_certs", "ca_cert_path"]

/-- Connection of a form. -/
def ofJson? (isNothing : Json → Bool) (j : Json) : Option Connection := do
  match ← j.fields? fields with
  | [name, host, port, database, username, password, mode, accepts, path] =>
    return {
      name := ← Json.required? (·.string?) name
      host := ← Json.required? (·.string?) host
      port := .ofNat (← Json.required? (·.nat? UInt16.size) port)
      database := ← Json.required? (·.string?) database
      username := ← Json.required? (·.string?) username
      password := ← Json.withDefault? "" (·.string?) password
      tlsMode := ← Json.withDefault? .prefer (·.named? isNothing TlsMode.ofName?) mode
      acceptsInvalidCertificates := ← Json.withDefault? false (·.bool?) accepts
      certificatePath := ← Json.withDefault? none (Json.nullable? (·.string?)) path }
  | _ => none

end Connection

end SqlWright
