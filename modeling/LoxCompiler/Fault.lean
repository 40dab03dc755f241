import LoxCompiler.Quantity

/-! # Faults

Steps that a compilation must never take. They are part of the result type, so that their
absence can be stated; no source leads to one.
-/

namespace LoxCompiler

/-- A broken precondition inside the compiler. -/
inductive Fault where
  /-- The innermost function is asked for, and there is none. -/
  | emptyFrameStack
  /-- The innermost function is finished, and there is none. -/
  | popOfEmptyFrameStack
  /-- A class ends, and there is none. -/
  | emptyClassStack
  /-- A scope ends outside all scopes. -/
  | noScope
  /-- A jump is completed that was not written, or was completed before. -/
  | noSuchJump
  /-- A jump is completed whose operand is outside the code. -/
  | jumpOutsideCode
  /-- A loop starts after the end of the code. -/
  | loopOutsideCode
  /-- The recursion is deeper than the number of tokens. -/
  | outOfBudget
  /-- The audit does not allow a state of the compilation. -/
  | auditFailed
  /-- The compilation is to stop at a number that code has to hold. -/
  | refused (quantity : Quantity)
deriving DecidableEq, Repr

/-- What is said about a fault. -/
def Fault.message : Fault → String
  | .emptyFrameStack => "empty frame stack"
  | .popOfEmptyFrameStack => "attempt to pop empty frame stack"
  | .emptyClassStack => "class stack should not be empty"
  | .noScope => "no scope to leave"
  | .noSuchJump => "no such jump to complete"
  | .jumpOutsideCode => "jump outside of the code"
  | .loopOutsideCode => "loop outside of the code"
  | .outOfBudget => "nesting deeper than the source is long"
  | .auditFailed => "state not allowed by the audit"
  | .refused _ => "number not allowed"

end LoxCompiler
