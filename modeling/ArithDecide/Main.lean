import ArithDecide.CommandLine

/-!
# The program

Runs the command line on the files and streams of the system.
-/

namespace ArithDecide.CommandLine

/-- Why the system could not read a file. -/
def FileError.ofSystem : IO.Error → FileError
  | .noFileOrDirectory .. => .missing
  | .permissionDenied .. => .permissionDenied
  | .inappropriateType _ 21 _ => .isDirectory
  | .inappropriateType .. => .notDirectory
  | error => .other error.toString

/-- The text of a file of the system. -/
def readFile (path : String) : IO (Except FileError String) := do
  try
    let bytes ← IO.FS.readBinFile path
    return match String.fromUTF8? bytes with
      | some text => .ok text
      | none => .error .notText
  catch error => return .error (.ofSystem error)

end ArithDecide.CommandLine

def main (words : List String) : IO UInt32 := do
  let outcome ← ArithDecide.CommandLine.runWith ArithDecide.CommandLine.readFile words
  IO.print outcome.output
  IO.eprint outcome.errors
  return outcome.exitCode.toUInt32
