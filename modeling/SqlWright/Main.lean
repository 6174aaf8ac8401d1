import SqlWright.CommandLine.Run

/-!
# The program

Runs the command line on the files of the machine.
-/

namespace SqlWright

/-- Text of a file, if it can be read. -/
def readText (path : String) : IO (Option String) := do
  try return some (← IO.FS.readFile path)
  catch _ => return none

/-- Whether there is a file, be it readable or not. -/
def isThere (path : String) : IO Bool := do
  try
    let _ ← IO.FS.readFile path
    return true
  catch
    | .noFileOrDirectory _ _ _ => return false
    | _ => return true

/-- Directory of the user's configuration files. -/
def configDirectory : IO String := do
  match ← IO.getEnv "XDG_CONFIG_HOME" with
  | some path => if path.startsWith "/" then return path
  | none => pure ()
  match ← IO.getEnv "HOME" with
  | some home => return home ++ "/.config"
  | none => return "."

/-- Surroundings of the program. -/
def host : IO (CommandLine.Host IO) := do
  return {
    read := readText
    hasFile := isThere
    configPath := (← configDirectory) ++ "/sqldom/config.toml" }

end SqlWright

/-- Runs the command line and writes its outcome. -/
def main (args : List String) : IO UInt32 := do
  let outcome ← SqlWright.CommandLine.run (← SqlWright.host) args
  for line in outcome.output do
    IO.println line
  for line in outcome.errors do
    IO.eprintln line
  return outcome.exitCode.toUInt32
