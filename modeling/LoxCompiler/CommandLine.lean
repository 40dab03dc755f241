/-! # The command line

Arguments are read from left to right. The first request for help or for the version, and the
first argument that has no place, decide at once.
-/

namespace LoxCompiler.CommandLine

/-- What to compile, and what to print. -/
structure Options where
  /-- The script to read. Without one, the standard input is read. -/
  script : Option String
  printBytecode : Bool
deriving DecidableEq, Repr

/-- What the program is asked to do. -/
inductive Command where
  | help
  | version
  | run (options : Options)
deriving DecidableEq, Repr

/-- Why arguments are refused. -/
inductive UsageError where
  /-- An argument that means nothing, or a second script. -/
  | unknownArgument (argument : String)
  /-- A flag that is given more than once. -/
  | repeatedFlag
deriving DecidableEq, Repr

/-- The flags. -/
inductive Flag where
  | bytecode
  | help
  | version
deriving DecidableEq, Repr

/-- An argument by its form. -/
inductive Argument where
  /-- The mark after which all arguments are positional. -/
  | terminator
  /-- A flag, if there is one of that name. -/
  | flag (flag : Option Flag)
  | positional
deriving DecidableEq, Repr

/-- The flag with a long name. -/
def Flag.ofName? (name : List Char) : Option Flag :=
  if name = ['b', 'y', 't', 'e', 'c', 'o', 'd', 'e'] then some .bytecode
  else if name = ['h', 'e', 'l', 'p'] then some .help
  else if name = ['v', 'e', 'r', 's', 'i', 'o', 'n'] then some .version
  else none

/-- The flag with a letter. -/
def Flag.ofLetter? (letter : Char) : Option Flag :=
  if letter = 'h' then some .help
  else if letter = 'V' then some .version
  else none

/-- The form of an argument. A long name may have more dashes before it and a value after it,
which mean nothing. Of letters written together only the first counts, since every letter
decides at once. A dash alone is no flag. -/
def Argument.ofChars : List Char → Argument
  | ['-', '-'] => .terminator
  | '-' :: '-' :: rest => .flag (Flag.ofName? ((rest.dropWhile (· == '-')).takeWhile (· != '=')))
  | '-' :: letter :: _ => .flag (Flag.ofLetter? letter)
  | _ => .positional

/-- What the arguments so far have said. -/
structure Reading where
  script : Option String
  bytecodeFlags : Nat
  onlyPositional : Bool

/-- The form of an argument in its place. -/
def Reading.form (r : Reading) (argument : String) : Argument :=
  if r.onlyPositional then .positional else .ofChars argument.toList

/-- Read the remaining arguments. -/
def Reading.finish (r : Reading) : List String → Except UsageError Command
  | [] =>
      if 1 < r.bytecodeFlags then .error .repeatedFlag
      else .ok (.run ⟨r.script, r.bytecodeFlags = 1⟩)
  | argument :: rest =>
      match r.form argument with
      | .terminator => { r with onlyPositional := true }.finish rest
      | .flag (some .help) => .ok .help
      | .flag (some .version) => .ok .version
      | .flag (some .bytecode) => { r with bytecodeFlags := r.bytecodeFlags + 1 }.finish rest
      | .flag none => .error (.unknownArgument argument)
      | .positional =>
          match r.script with
          | none => { r with script := some argument }.finish rest
          | some _ => .error (.unknownArgument argument)

/-- Read the arguments after the program's name. -/
def parse (arguments : List String) : Except UsageError Command :=
  Reading.finish ⟨none, 0, false⟩ arguments

/-- The name and version of the program. -/
def versionText : String := "relox 0.1.0"

/-- The forms in which the program is called. -/
def usageText : String := "USAGE:\n    relox [FLAGS] [script]"

/-- The help text, without a newline at its end. -/
def helpText : String :=
  versionText ++
    "\n\nA single-pass bytecode compiler for the Lox scripting language\n\n" ++
    usageText ++
    "\n\nFLAGS:\n        --bytecode    Print the compiled bytecode.\n" ++
    "    -h, --help        Prints help information\n" ++
    "    -V, --version     Prints version information\n\n" ++
    "ARGS:\n    <script>    The script to compile. Reads from stdin if omitted."

/-- The message for refused arguments. -/
def UsageError.message : UsageError → String
  | .unknownArgument argument =>
      "error: The argument '" ++ argument ++ "' was not expected.\n\n" ++ usageText ++ "\n"
  | .repeatedFlag =>
      "error: The argument '--bytecode' was given more than once.\n\n" ++ usageText ++ "\n"

end LoxCompiler.CommandLine
