import SqlWright.CommandLine.Options
import SqlWright.Compiler
import SqlWright.Plan.Build
import SqlWright.Plan.Reader
import SqlWright.Settings.Basic

/-!
# Running the command line

A run reads the configuration, then settles the server, reads and compiles the
plan, and renders the command with what the options bind. The first failure ends
it. Files are read through the host, which may be any monad.
-/

namespace SqlWright.CommandLine

/-- Cause for which a run ends without a command. -/
inductive Failure where
  | unreadableConfig (path : String)
  | invalidConfig (path : String)
  | invalidLogLevel (level : String)
  | unknownConnection (name : String) (known : List String)
  | unreadableCertificates (path : String)
  | invalidCertificates (path : String)
  | notConnected
  | noTarget
  | unreadablePlan (path : String)
  | notAPair (entry : String)
  | unknownParameter (name : String)
  | invalidTypeId (entry : String)
  | notCompiled (cause : Error)
  deriving DecidableEq

/-- Text of the failure. -/
def Failure.message : Failure → String
  | unreadableConfig path => s!"Failed to read config file {path}"
  | invalidConfig path => s!"Invalid config file {path}"
  | invalidLogLevel level => s!"Invalid log level {Text.quoted level}"
  | unknownConnection name known =>
    s!"No saved connection named {Text.quoted name} (known: " ++ ", ".intercalate known ++ ")"
  | unreadableCertificates path => s!"Failed to read CA certificate file: {path}"
  | invalidCertificates path => s!"Failed to parse CA certificate: {path}"
  | notConnected => "Failed to connect to PostgreSQL"
  | noTarget => "Pass --dialect or --connect, or set `dialect` in the config file"
  | unreadablePlan path => s!"Failed to read plan {path}"
  | notAPair entry => s!"Expected NAME=VALUE, got {Text.quoted entry}"
  | unknownParameter name => s!"Plan has no parameter named {Text.quoted name}"
  | invalidTypeId entry => s!"Invalid type id in {Text.quoted entry}"
  | notCompiled cause => cause.message

/-- Result of a run. -/
inductive Outcome where
  | usageError
  | failed (cause : Failure)
  /-- Text of the command, and the hints and names of its parameters. -/
  | printed (text : String) (parameters : List (String × String))

namespace Outcome

/-- Exit code of the program. -/
def exitCode : Outcome → UInt8
  | usageError => 2
  | failed _ => 1
  | printed _ _ => 0

/-- Lines of the standard output. -/
def output : Outcome → List String
  | printed text _ => [text]
  | _ => []

/-- Lines of the standard error output. -/
def errors : Outcome → List String
  | usageError => ["Usage: compile [OPTIONS] <PLAN>"]
  | failed cause => ["Error: " ++ cause.message]
  | printed _ parameters => parameters.map fun (hint, name) ↦ s!"-- {hint} => {name}"

end Outcome

/-- What a run sees of its surroundings: texts of files, which files there are, and where the
configuration is unless an option says so. -/
structure Host (m : Type → Type) where
  read : String → m (Option String)
  hasFile : String → m Bool
  configPath : String

/-- Levels of the log. -/
def logLevels : List String := ["error", "warn", "info", "debug", "trace"]

/-- Whether a text names a level of the log, or is the number of one, counted from one. -/
def isLogLevel (s : String) : Bool :=
  match Text.unsigned? UInt64.size s.toList with
  | some n => 1 ≤ n && n ≤ logLevels.length
  | none => logLevels.any (Settings.sameName s)

/-- Name and value with an equals sign between. The name is not empty. -/
def pair (entry : String) : Except Failure (String × String) :=
  match Text.cut? '=' entry.toList with
  | some (c :: name, value) => .ok (String.ofList (c :: name), String.ofList value)
  | _ => .error (.notAPair entry)

/-- Parts of a text between the marks. -/
def parts (mark : Char) (s : String) : List String :=
  (Text.splitAt (· == mark) s.toList).map String.ofList

/-- Number of a type. -/
def typeId (entry : String) : Except Failure (String × Int32) := do
  let (name, id) ← pair entry
  match Text.signed? Int32.minValue.toInt Int32.maxValue.toInt id.toList with
  | some n => return (name, .ofInt n)
  | none => throw (.invalidTypeId entry)

/-- Rows of a dynamic filter: semicolons between rows, commas between values. Empty rows are
left out. -/
def filterRows (entry : String) : Except Failure (String × List (List String)) := do
  let (id, rows) ← pair entry
  return (id, ((parts ';' rows).filter (!·.isEmpty)).map (parts ','))

/-- Bindings that the options ask for. -/
def bindings (plan : Plan) (o : Options) : Except Failure Bindings := do
  let b ← o.binds.foldlM (fun (b : Bindings) entry ↦ do
    let (name, value) ← pair entry
    return b.bind (.key name) value) {}
  let b ← o.nulls.foldlM (fun (b : Bindings) name ↦
    match plan.parameter? name with
    | some p => .ok (b.select (.isNull p))
    | none => .error (.unknownParameter name)) b
  let ids ← o.typeIds.mapM typeId
  let b := if ids.isEmpty then b else b.withTypeIds ids
  o.rows.foldlM (fun (b : Bindings) entry ↦ do
    let (id, rows) ← filterRows entry
    return b.bindRows id rows) b

/-- Failure to compile as the failure of a run. -/
def compiled {α : Type} (r : Except Error α) : Except Failure α := r.mapError .notCompiled

/-- Server that the options name, or else the settings. Without a version the oldest is
meant. -/
def target (s : Settings) (o : Options) : Except Failure (Dialect × Version) := do
  let dialect ← match o.dialect, s.dialect with
    | some name, _ => compiled (Dialect.ofText name)
    | none, some dialect => pure dialect
    | none, none => throw .noTarget
  match o.serverVersion <|> s.serverVersion with
  | some text => return (dialect, ← compiled (Version.ofText text))
  | none => return (dialect, dialect.oldest)

/-- Outcome of a command rendered with the bindings of the options. -/
def print (plan : Plan) (command : Command) (o : Options) : Except Failure Outcome := do
  let b ← bindings plan o
  let text ← compiled (command.text b)
  let parameters ← command.parameters.mapM fun (p, _) ↦ do
    return (p.hint, ← compiled (command.parameterName p))
  return .printed text parameters

section Run

variable {m : Type → Type} [Monad m] (h : Host m)

/-- Settings of the configuration file. Only a file that an option names has to be there. -/
def settings (path? : Option String) : ExceptT Failure m Settings := do
  let path := path?.getD h.configPath
  if path?.isSome || (← h.hasFile path) then
    match ← h.read path with
    | none => throw (.unreadableConfig path)
    | some text =>
      match Settings.ofText? text with
      | some s => return s
      | none => throw (.invalidConfig path)
  else return {}

/-- Version of the server behind a saved connection. The certificates are looked at before the
server is asked; servers cannot be reached from here. -/
def probe (c : Connection) : ExceptT Failure m (Dialect × Version) := do
  if let some path := c.neededCertificates then
    match ← h.read path with
    | none => throw (.unreadableCertificates path)
    | some text =>
      if (text.splitOn "-----BEGIN CERTIFICATE-----").length < 2 then
        throw (.invalidCertificates path)
  throw .notConnected

/-- Server that statements are written for. -/
def server (s : Settings) (o : Options) : ExceptT Failure m (Dialect × Version) := do
  match o.connect with
  | none => liftExcept (target s o)
  | some name =>
    match s.connection? name with
    | some c => probe h c
    | none => throw (.unknownConnection name (s.connections.map (·.name)))
where
  /-- Result that needs no host. -/
  liftExcept {α : Type} (r : Except Failure α) : ExceptT Failure m α := ExceptT.mk (pure r)

/-- Outcome of the options. -/
def compile (o : Options) : ExceptT Failure m Outcome := do
  let s ← settings h o.config
  let level := s.logLevel.getD "warn"
  if !isLogLevel level then throw (.invalidLogLevel level)
  let (dialect, version) ← server h s o
  let compiler ← lift (compiled (Compiler.build dialect version Simplification.standard))
  match ← h.read o.plan with
  | none => throw (.unreadablePlan o.plan)
  | some text =>
    let plan ← lift (compiled do (← Plan.Document.ofText text).build)
    let command ← lift (compiled (compiler.command plan.relation))
    lift (print plan command o)
where
  /-- Result that needs no host. -/
  lift {α : Type} (r : Except Failure α) : ExceptT Failure m α := ExceptT.mk (pure r)

/-- Outcome of a command line. -/
def run (args : List String) : m Outcome := do
  match Options.of? none args with
  | none => return .usageError
  | some o =>
    match ← (compile h o).run with
    | .ok outcome => return outcome
    | .error cause => return .failed cause

end Run

end SqlWright.CommandLine
