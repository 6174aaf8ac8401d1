import SqlWright.Server.Dialect
import SqlWright.Settings.Connection
import SqlWright.Toml.Reader

/-!
# Settings

What the command line takes from its configuration file: the level of the log, the
server that statements are written for, and saved connections.
-/

namespace SqlWright

/-- Contents of a configuration file. -/
structure Settings where
  logLevel : Option String := none
  dialect : Option Dialect := none
  serverVersion : Option String := none
  connections : List Connection := []
  deriving DecidableEq

namespace Settings

/-- Whether a value is an array or an object without members, which count as nothing. -/
def isEmpty : Json → Bool
  | .array [] | .object [] => true
  | _ => false

/-- Form without the items that an array has beyond the first ones. -/
def firstItems (count : Nat) : Json → Json
  | .array items => .array (items.take count)
  | j => j

/-- Connection of a form. What an array has beyond the fields is passed over. -/
def connectionOf? (j : Json) : Option Connection :=
  Connection.ofJson? isEmpty (firstItems Connection.fields.length j)

/-- Settings of a form. -/
def ofJson? (j : Json) : Option Settings := do
  match ← j.fields? ["log_level", "dialect", "server_version", "connections"] with
  | [logLevel, dialect, serverVersion, connections] =>
    return {
      logLevel := ← Json.withDefault? none (Json.nullable? (·.string?)) logLevel
      dialect :=
        ← Json.withDefault? none (Json.nullable? (·.named? isEmpty Dialect.ofName?)) dialect
      serverVersion := ← Json.withDefault? none (Json.nullable? (·.string?)) serverVersion
      connections := ← Json.withDefault? [] (Json.list? connectionOf?) connections }
  | _ => none

/-- Settings that a text holds. -/
def ofText? (s : String) : Option Settings := (Toml.ofText? s).bind ofJson?

/-- Form of an optional text. -/
def optional : Option String → Json
  | some s => .ofString s
  | none => .null

/-- Form of the settings. -/
def toJson (s : Settings) : Json :=
  .ofFields [
    ("log_level", optional s.logLevel),
    ("dialect", optional (s.dialect.map (·.name))),
    ("server_version", optional s.serverVersion),
    ("connections", .array (s.connections.map Connection.toJson))]

/-- Whether two names differ at most in the case of ASCII letters. -/
def sameName (a b : String) : Bool := a.map Char.toLower == b.map Char.toLower

/-- First saved connection of a name, whatever the case of its letters. -/
def connection? (s : Settings) (name : String) : Option Connection :=
  s.connections.find? (sameName ·.name name)

/-- Line that assigns a text. -/
def assigned (key value : String) : String := key ++ " = " ++ Toml.stringText value

/-- Line that assigns an optional text; none if it is not set. -/
def assignedIf (key : String) (value : Option String) : List String :=
  value.toList.map (assigned key)

/-- Lines of a saved connection. -/
def connectionLines (c : Connection) : List String :=
  ["[[connections]]",
   assigned "name" c.name,
   assigned "host" c.host,
   "port = " ++ c.port.toNat.repr,
   assigned "database" c.database,
   assigned "username" c.username,
   assigned "ssl_mode" c.tlsMode.name,
   "accept_invalid_certs = " ++ (if c.acceptsInvalidCertificates then "true" else "false")] ++
    assignedIf "ca_cert_path" c.certificatePath

/-- Lines in front of the connections. -/
def topLines (s : Settings) : List String :=
  assignedIf "log_level" s.logLevel ++ assignedIf "dialect" (s.dialect.map (·.name)) ++
    assignedIf "server_version" s.serverVersion ++
    if s.connections.isEmpty then ["connections = []"] else []

/-- Blocks of lines of the configuration file. -/
def blocks (s : Settings) : List (List String) :=
  (if s.topLines.isEmpty then [] else [s.topLines]) ++ s.connections.map connectionLines

/-- Text of the configuration file: the blocks with empty lines between. -/
def text (s : Settings) : String :=
  "\n".intercalate (s.blocks.map fun lines ↦ String.join (lines.map (· ++ "\n")))

end Settings

end SqlWright
