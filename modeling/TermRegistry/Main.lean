import TermRegistry.CommandLine

/-!
# The program

Reads arguments, environment and files, runs the command and prints what it leaves behind.
-/

namespace TermRegistry

namespace CommandLine

/-- Why a file cannot be read. -/
def inputFault : IO.Error → InputFault
  | .inappropriateType _ code _ => if code = 21 then .isDirectory else .notDirectory
  | .invalidArgument _ code _ => if code = 36 then .nameTooLong else .zeroInName
  | _ => .noSuchFile

/-- The bytes of a file, if it can be read. -/
def readFile (path : String) : IO (Except InputFault ByteArray) := do
  try return .ok (← IO.FS.readBinFile path)
  catch e => return .error (inputFault e)

/-- The names of the environment variables that the command looks at. -/
def variableNames : List String :=
  ["CONTEXT", "LOG_LEVEL", "RULE_SET", "SOURCE", "FORMAT", "BINDINGS"].map (environmentPrefix ++ ·)

/-- The environment variables that the command looks at. -/
def environment : IO Environment :=
  .ofList <$> (settingsVariable :: variableNames).filterMapM fun name ↦ do
    return (← IO.getEnv name).map fun value ↦ (name, value)

end CommandLine

end TermRegistry

def main (args : List String) : IO UInt32 := do
  let environment ← TermRegistry.CommandLine.environment
  let outcome ← TermRegistry.CommandLine.run TermRegistry.CommandLine.readFile environment args
  IO.print outcome.stdout
  IO.eprint outcome.stderr
  return outcome.code.toUInt32
