import SqlWright.Text.Split

/-!
# Options of the command line

There is one command, `compile`, which takes a plan and options. A value follows
its option, as the next argument or after an equals sign. What does not fit is a
usage error, of which no more is said.
-/

namespace SqlWright.CommandLine

/-- Option that takes a value. -/
inductive Flag where
  | config
  | dialect
  | serverVersion
  | connect
  | bind
  | null
  | typeId
  | rows
  deriving DecidableEq

namespace Flag

/-- Every value, in the order of definition. -/
def all : List Flag := [config, dialect, serverVersion, connect, bind, null, typeId, rows]

/-- Name after the two dashes. -/
def name : Flag → String
  | config => "config"
  | dialect => "dialect"
  | serverVersion => "server-version"
  | connect => "connect"
  | bind => "bind"
  | null => "null"
  | typeId => "type-id"
  | rows => "rows"

/-- Option that has the name. -/
def ofName? (s : String) : Option Flag := all.find? (·.name == s)

/-- Whether the option may be given several times. -/
def isList : Flag → Bool
  | bind | null | typeId | rows => true
  | _ => false

/-- Whether the option takes the value. A path is not empty. -/
def takes (f : Flag) (value : String) : Bool := f ≠ config || !value.isEmpty

/-- Options that may not be given together. -/
def excludes : Flag → Flag → Bool
  | connect, dialect | connect, serverVersion => true
  | _, _ => false

end Flag

/-- Value of an option. -/
abbrev Setting := Flag × String

/-- Arguments taken apart. -/
structure Parsed where
  settings : List Setting := []
  others : List String := []

/-- Kind of one argument by its look. -/
inductive Look where
  /-- Two dashes alone. -/
  | escape
  /-- Option with its value if that is in the same argument. -/
  | option (flag : Flag) (value : Option String)
  | unknown
  | plain

/-- Kind of an argument. A single dash is plain. -/
def Look.of (arg : String) : Look :=
  match arg.toList with
  | ['-', '-'] => .escape
  | '-' :: '-' :: cs =>
    let (name, value) := match Text.cut? '=' cs with
      | some (name, value) => (name, some (String.ofList value))
      | none => (cs, none)
    match Flag.ofName? (String.ofList name) with
    | some flag => .option flag value
    | none => .unknown
  | '-' :: _ :: _ => .unknown
  | _ => .plain

/-- Whether an argument may be the value of the option in front of it. -/
def isValue (arg : String) : Bool :=
  match Look.of arg with
  | .plain => true
  | _ => false

namespace Parsed

/-- Arguments with one more value of an option. -/
def set (p : Parsed) (flag : Flag) (value : String) : Parsed :=
  { p with settings := (flag, value) :: p.settings }

/-- Arguments taken apart. -/
def of? : List String → Option Parsed
  | [] => some {}
  | arg :: rest =>
    match Look.of arg with
    | .escape => some { others := rest }
    | .option flag (some value) => (of? rest).map (·.set flag value)
    | .option flag none =>
      match rest with
      | value :: rest => if isValue value then (of? rest).map (·.set flag value) else none
      | [] => none
    | .unknown => none
    | .plain => (of? rest).map fun p ↦ { p with others := arg :: p.others }

/-- Values of an option. -/
def values (p : Parsed) (flag : Flag) : List String :=
  p.settings.filterMap fun (f, value) ↦ if f = flag then some value else none

/-- Whether each option is given in a way that it admits. -/
def isValid (p : Parsed) : Bool :=
  p.settings.all (fun (f, value) ↦ f.takes value) &&
    Flag.all.all (fun f ↦ f.isList || (p.values f).length ≤ 1) &&
    Flag.all.all fun f ↦ Flag.all.all fun g ↦
      !f.excludes g || (p.values f).isEmpty || (p.values g).isEmpty

end Parsed

/-- What a command line asks for. -/
structure Options where
  plan : String
  config : Option String
  dialect : Option String
  serverVersion : Option String
  connect : Option String
  binds : List String
  nulls : List String
  typeIds : List String
  rows : List String

namespace Options

/-- Options of the command, of which a path of the configuration may be known already. -/
def ofCommand? (config : Option String) (args : List String) : Option Options := do
  let p ← Parsed.of? args
  match p.others with
  | [plan] =>
    if p.isValid ∧ !plan.isEmpty then
      return {
        plan
        config := (p.values .config).head? <|> config
        dialect := (p.values .dialect).head?
        serverVersion := (p.values .serverVersion).head?
        connect := (p.values .connect).head?
        binds := p.values .bind
        nulls := p.values .null
        typeIds := p.values .typeId
        rows := p.values .rows }
    else none
  | _ => none

/-- Options of all arguments, of which `config` is known already. The path of the
configuration may stand in front of the command. -/
def of? : Option String → List String → Option Options
  | _, [] => none
  | config, arg :: rest =>
    match Look.of arg with
    | .plain => if arg = "compile" then ofCommand? config rest else none
    | .option .config (some path) =>
      if config.isNone ∧ !path.isEmpty then of? (some path) rest else none
    | .option .config none =>
      match rest with
      | path :: rest =>
        if config.isNone ∧ isValue path ∧ !path.isEmpty then of? (some path) rest else none
      | [] => none
    | _ => none

end Options

end SqlWright.CommandLine
