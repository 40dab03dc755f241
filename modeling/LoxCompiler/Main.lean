import LoxCompiler.Program

/-! # The executable

The standard streams, files and exit code of a run. All decisions are those of
`LoxCompiler.Program`.
-/

namespace LoxCompiler.Program

/-- Run an action that reads bytes, and sort its errors. -/
def readWith (action : IO ByteArray) : IO (Except ReadFault Bytes) := do
  try
    return .ok (← action).toList
  catch
    | .noFileOrDirectory .. => return .error .missing
    | .inappropriateType .. => return .error .isDirectory
    | e => return .error (.other (toString e))

/-- Read the standard input to its end. -/
def readInput : IO ByteArray := do (← IO.getStdin).readBinToEnd

end LoxCompiler.Program

open LoxCompiler Program in
/-- Run the program with the arguments after its name. -/
def main (arguments : List String) : IO UInt32 := do
  let readFile := fun (path : String) => readWith (IO.FS.readBinFile path)
  match ← run (readWith readInput) readFile arguments with
  | .refused error =>
      IO.eprint error.message
      return 1
  | .ended ending =>
      IO.print ending.output
      IO.eprint ending.errors
      return ending.exitCode.toUInt32
