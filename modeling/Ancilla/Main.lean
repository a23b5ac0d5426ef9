import Ancilla.Command.Files
import Ancilla.Command.Report

/-! The program: reads the variables and the settings file it may need, runs, and prints. -/

namespace Ancilla.Command

def readFailure : IO.Error → String
  | .noFileOrDirectory .. => FileError.missing.message
  | e => toString e

def readSettings (path : String) : IO (Except String String) := do
  try
    return .ok (← IO.FS.readFile path)
  catch e =>
    return .error (readFailure e)

def surroundings (args : List String) : IO Surroundings := do
  let names := settingsVariable :: Settings.variableNames
  let values ← names.mapM fun name => do return (name, ← IO.getEnv name)
  let valueOf (name : String) : Option String := (values.lookup name).join
  let path := (Invocation.parse valueOf args).toOption.bind Invocation.settingsPath
  let content ← match path with
    | some path => readSettings path
    | none => pure (.error "")
  return ⟨valueOf, fun _ => content⟩

end Ancilla.Command

def main (args : List String) : IO UInt32 := do
  let report := Ancilla.Command.run (← Ancilla.Command.surroundings args) args
  (← IO.getStdout).putStr report.output
  (← IO.getStderr).putStr report.errors
  return UInt32.ofNat report.exitCode
