import LoxCompiler.Bytecode.Opcode
import LoxCompiler.Session.Basic

/-! # Emitting code

All code goes to the end of the innermost function, cell by cell. Forward jumps are written
before their distance is known: they get a placeholder, which is overwritten when the code in
between is there.
-/

namespace LoxCompiler.Compile

variable {β : Type} {c : Settings β}

/-- The innermost function. -/
def frame : Compile c (Frame β) := fun s => do return (← s.frames.innermost, s)

/-- Change the innermost function. -/
@[inline] def modifyFrame (f : Frame β → Frame β) : Compile c Unit :=
  change fun s => do
    let frames ← Frames.modifyInnermost f s.frames
    return ((), { s with frames })

/-- The number of cells of the innermost function, which is the offset of its next one. -/
def codeSize : Compile c Nat := return (← frame).code.size

/-- The number of constants of the innermost function. -/
def constantCount : Compile c Nat := return (← frame).constants.size

/-- Append a cell, with the line of the last token taken. -/
def emitCell (value : Nat) : Compile c Unit := do
  let line := (← previous).position.line
  modifyFrame (·.write (c.cell value) line)

/-- Append an opcode. -/
def emit (op : Opcode) : Compile c Unit := emitCell op.toByte.toNat

/-- Append an opcode with an operand of one cell. -/
def emitWith (op : Opcode) (operand : Nat) : Compile c Unit := do
  emit op
  emitCell operand

/-- Add a constant to the innermost function, and give its index. -/
def addConstant (value : Constant β) : Compile c Nat := do
  modifyFrame (·.addConstant value)
  let index := (← constantCount) - 1
  measure (.constantIndex index)
  if Limits.admits c.limits.constantIndex index then return index
  else
    report .tooManyConstants
    return 0

/-- Add a name as a constant. -/
def addName (name : Symbol) : Compile c Nat := addConstant (.string name)

/-- Append the instruction that pushes a constant. -/
def emitConstant (value : Constant β) : Compile c Unit := do
  emitWith .constant (← addConstant value)

/-- A jump distance that fits, or the greatest one with a report of the problem. -/
def fitDistance (problem : Diagnostic.Problem) (distance : Nat) : Compile c Nat := do
  let limit := c.limits.distance
  if Limits.admits limit distance then return distance
  else
    report problem
    return Limits.clamp limit distance

/-- Append a forward jump without its distance, and give the offset of its operand. -/
def emitJump (op : Opcode) : Compile c Nat := do
  emit op
  let operand ← codeSize
  emitCell 0xff
  emitCell 0xff
  modifyFrame (·.openJump operand)
  return operand

/-- Let the jump with its operand at an offset lead to the end of the code. -/
def patchJump (operand : Nat) : Compile c Unit := do
  if !(← frame).openJumps.contains operand then throw .noSuchJump
  let size ← codeSize
  if size < operand + 2 then throw .jumpOutsideCode
  measure (.jump (size - operand - 2))
  let distance ← fitDistance .jumpTooLarge (size - operand - 2)
  modifyFrame (·.closeJump operand (c.cell (distance / 256)) (c.cell (distance % 256)))

/-- Append a jump back to an offset. -/
def emitLoop (start : Nat) : Compile c Unit := do
  emit .loop
  let size ← codeSize
  if size < start then throw .loopOutsideCode
  measure (.loop (size - start + 2))
  let distance ← fitDistance .loopTooLarge (size - start + 2)
  emitCell (distance / 256)
  emitCell (distance % 256)

/-- Append the return at the end of a function: of the receiver in initializers, and of nil
in other functions. -/
def emitReturn : Compile c Unit := do
  if (← frame).kind = .initializer then emitWith .getLocal 0
  else emit .pushNil
  emit .ret

end LoxCompiler.Compile
