import LoxCompiler.Session.Scope

/-! # Access to variables -/

namespace LoxCompiler

/-- The instructions that read and write a variable, with their common operand. -/
structure Access where
  get : Opcode
  set : Opcode
  operand : Nat
deriving DecidableEq, Repr

namespace Compile

variable {β : Type} {c : Settings β}

/-- Find out what a name means: a local, a captured variable, or else a global. -/
def access (name : Symbol) : Compile c Access := do
  match ← resolveLocal name with
  | some slot => return ⟨.getLocal, .setLocal, slot⟩
  | none =>
      match ← resolveUpvalue name with
      | some index => return ⟨.getUpvalue, .setUpvalue, index⟩
      | none => return ⟨.getGlobal, .setGlobal, ← addName name⟩

/-- Read a variable. -/
def loadVariable (name : Symbol) : Compile c Unit := do
  let access ← access name
  emitWith access.get access.operand

end Compile

end LoxCompiler
