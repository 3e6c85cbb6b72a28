/-
The program: the command line on the process's own arguments, files and streams.
-/
import TreeRules.CommandLine.Run

namespace TreeRules

/-- Reads a file, or says why it cannot be read. -/
def readFileBytes (path : String) : IO (Except String ByteArray) := do
  try
    return .ok (← IO.FS.readBinFile path)
  catch
    | .noFileOrDirectory .. => return .error "No such file or directory (os error 2)"
    | error => return .error (toString error)

/-- What the options ask for, read beforehand. -/
def readWorld (options : CommandLine.Options) : IO CommandLine.World := do
  let files ← options.files.mapM fun path => return (path, ← readFileBytes path)
  let stdin ← if options.tree.isNone then (← IO.getStdin).readBinToEnd else pure .empty
  return {
    file := fun path => (files.lookup path).getD (.error "the file was not asked for")
    stdin
    shown := fun n => s!"#{n}" }

end TreeRules

/-- Runs the command line. -/
def main (arguments : List String) : IO UInt32 := do
  let options := TreeRules.CommandLine.Options.read arguments
  let result ← match options with
    | .error stop => pure (TreeRules.CommandLine.stopped stop)
    | .ok options =>
      pure (TreeRules.CommandLine.perform (← TreeRules.readWorld options) options)
  (← IO.getStdout).putStr result.stdout
  (← IO.getStderr).putStr result.stderr
  return result.exit
