import SqlWright.Server.Dialect

/-!
# Capabilities of servers

What a version of a server can do by itself. A capability that comes with one
version stays in the later ones.
-/

namespace SqlWright

/-- Server of a dialect and version, and what it can do: limit rows, leave rows out at the
front, number rows, place NULL in an ordering, pass over locked rows, fill index pages in
part; and the longest identifier it takes. -/
structure Server where
  dialect : Dialect
  version : Version
  limit : Bool
  offset : Bool
  rowNumber : Bool
  nullsOrdering : Bool
  skipLocked : Bool
  fillFactor : Bool
  maxIdentifierLength : Nat
  deriving DecidableEq

namespace Server

/-- Capabilities of a version. -/
def capabilities (dialect : Dialect) (version : Version) : Server :=
  let since (major minor : UInt16) : Bool := version.isSince ⟨major, minor⟩
  match dialect with
  | .postgreSql => {
      dialect, version
      limit := true
      offset := true
      rowNumber := since 8 4
      nullsOrdering := since 8 3
      skipLocked := false
      fillFactor := since 8 2
      maxIdentifierLength := 63 }
  | .sqlServer => {
      dialect, version
      limit := true
      offset := since 11 0
      rowNumber := true
      nullsOrdering := false
      skipLocked := true
      fillFactor := true
      maxIdentifierLength := 128 }
  | .oracle => {
      dialect, version
      limit := since 12 0
      offset := since 12 0
      rowNumber := true
      nullsOrdering := true
      skipLocked := since 11 0
      fillFactor := true
      maxIdentifierLength := if since 12 0 then 128 else 30 }

/-- Name and version. -/
def describe (dialect : Dialect) (version : Version) : String :=
  dialect.title ++ " " ++ version.text

/-- Name and version of a server. -/
def text (s : Server) : String := describe s.dialect s.version

/-- Server of a version that is supported. -/
def build (dialect : Dialect) (version : Version) : Except Error Server :=
  if version.isSince dialect.oldest then .ok (capabilities dialect version)
  else .error (.unsupportedServer
    s!"{describe dialect version} (oldest supported is {dialect.oldest.text})")

end Server

end SqlWright
