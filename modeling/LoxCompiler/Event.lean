import LoxCompiler.Frame.Basic

/-! # Events

What the compiler notes in its log while it works.
-/

namespace LoxCompiler

/-- A noteworthy step of a compilation. -/
inductive Event where
  /-- A function is finished. -/
  | compiled (kind : FunctionKind) (line bytes constants upvalues : Nat)
  /-- A scope is left, and its locals are dropped. -/
  | scopeLeft (depth dropped : Nat)
  /-- Reports are allowed again, after some tokens were skipped. -/
  | synchronized (line skipped : Nat)
deriving DecidableEq, Repr

/-- The importance of an event. -/
inductive Event.Level where
  | debug
  | trace
deriving DecidableEq, Repr

/-- The name of a kind of function in the log. -/
def FunctionKind.name : FunctionKind → String
  | .function => "Function"
  | .initializer => "Initializer"
  | .method => "Method"
  | .script => "Script"

namespace Event

/-- Finished functions matter more than the rest. -/
def level : Event → Level
  | .compiled .. => .debug
  | .scopeLeft .. | .synchronized .. => .trace

/-- The message of an event. -/
def message : Event → String
  | .compiled kind line bytes constants upvalues =>
      "compiled " ++ kind.name ++ " ending at line " ++ toString line ++ ": " ++
        toString bytes ++ " bytes, " ++ toString constants ++ " constants, " ++
        toString upvalues ++ " upvalues"
  | .scopeLeft depth dropped =>
      "scope exit to depth " ++ toString depth ++ ", popped " ++ toString dropped ++ " locals"
  | .synchronized line skipped =>
      "synchronized at line " ++ toString line ++ ", skipped " ++ toString skipped ++ " tokens"

end Event

end LoxCompiler
