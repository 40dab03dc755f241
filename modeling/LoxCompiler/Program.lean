import LoxCompiler.Bytecode.Listing
import LoxCompiler.CommandLine
import LoxCompiler.Compilation

/-! # The program

What a run of the program prints and how it ends, for any way to read its input.
-/

namespace LoxCompiler.Program

open CommandLine (Command Options UsageError)
open Text (Colour)

/-- Why a source cannot be read. -/
inductive ReadFault where
  | missing
  | isDirectory
  /-- Anything else, with the message of the operating system. -/
  | other (message : String)

/-- The message of the operating system. -/
def ReadFault.message : ReadFault → String
  | .missing => "No such file or directory (os error 2)"
  | .isDirectory => "Is a directory (os error 21)"
  | .other message => message

/-- How a run ends. -/
structure Ending where
  exitCode : UInt8
  output : String
  errors : String

/-- The outcome of a run. -/
inductive Outcome where
  /-- The arguments were refused. -/
  | refused (error : UsageError)
  | ended (ending : Ending)

/-- How many diagnostics are printed at most. -/
def maxDiagnostics : Nat := 20

/-- The diagnostics that are printed, one a line, and how many there are beyond them. -/
def diagnosticsText (diagnostics : List Diagnostic) : String :=
  let shown := diagnostics.take maxDiagnostics
  let more := diagnostics.length - maxDiagnostics
  String.join (shown.map fun d => Colour.red.paint d.text ++ "\n") ++
    if more = 0 then ""
    else Colour.yellow.paint ("... and " ++ toString more ++ " more errors") ++ "\n"

/-- Compile a source that was read, or say why it was not. -/
def compile (options : Options) : Except ReadFault Bytes → Ending
  | .error fault =>
      let name := options.script.getD "<stdin>"
      ⟨1, "", Colour.red.paint "Error" ++ ": " ++ name ++ ": " ++ fault.message ++ "\n"⟩
  | .ok source =>
      match Compilation.ofSource source .empty with
      | .error fault => ⟨101, "", fault.message ++ "\n"⟩
      | .ok compilation =>
          match compilation.result with
          | .error diagnostics => ⟨2, "", diagnosticsText diagnostics⟩
          | .ok f =>
              if options.printBytecode then
                ⟨0, Listing.ofFunction compilation.symbols f, ""⟩
              else ⟨0, "", ""⟩

/-- Run the program, with a way to read the standard input and a way to read files. -/
def run {m : Type → Type} [Monad m] (readInput : m (Except ReadFault Bytes))
    (readFile : String → m (Except ReadFault Bytes)) (arguments : List String) : m Outcome := do
  match CommandLine.parse arguments with
  | .error error => return .refused error
  | .ok .help => return .ended ⟨0, CommandLine.helpText ++ "\n", ""⟩
  | .ok .version => return .ended ⟨0, CommandLine.versionText ++ "\n", ""⟩
  | .ok (.run options) =>
      let source ← match options.script with
        | none => readInput
        | some path => readFile path
      return .ended (compile options source)

end LoxCompiler.Program
