import ScriptLint.Cli.Run

/-!
The command line.
-/

open ScriptLint Cli

/-- Why the system refused a path. A folder opens like a file and fails when it is read, where its name
is no longer at hand. -/
def faultOf : IO.Error → ReadFault
  | .noFileOrDirectory .. => .notFound
  | .inappropriateType none .. => .isFolder
  | .inappropriateType (some _) .. => .notFolder
  | .invalidArgument .. => .nameTooLong
  | .permissionDenied .. => .failed "Permission denied (os error 13)"
  | e => .failed (toString e)

/-- Reads a file as text. -/
def readText (path : String) : IO (Except ReadFault String) := do
  try
    let bytes ← IO.FS.readBinFile path
    return (String.fromUTF8? bytes).elim (.error .notText) .ok
  catch e => return .error (faultOf e)

def readStdin : IO (Except ReadFault String) := do
  let bytes ← (← IO.getStdin).readBinToEnd
  return (String.fromUTF8? bytes).elim (.error .notText) .ok

def main (args : List String) : IO UInt32 := do
  let names := ((Request.ofArguments? args).map Request.files).getD []
  let stdin ← if "-" ∈ names then readStdin else pure (.ok "")
  let files ← names.mapM fun name => do return (name, ← readText name)
  let format := if ← (← IO.getStdout).isTty then Format.pretty else .json
  let output := run format args {
    stdin
    file := fun name => (files.lookup name).getD (.error .notFound) }
  IO.print output.stdout
  IO.eprint output.stderr
  return output.code.toUInt32
