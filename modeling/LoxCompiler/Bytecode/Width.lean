/-! # Operand width

How many constants, variables and arguments a function may have, and how far it may jump,
follows from how wide its operands are.
-/

namespace LoxCompiler

/-- The greatest value that each kind of operand may take; `none` where there is none. -/
structure Limits where
  /-- The greatest index of a constant. -/
  constantIndex : Option Nat
  /-- The greatest number of locals of a function, its receiver counted. -/
  locals : Option Nat
  /-- The greatest number of captured variables of a function. -/
  upvalues : Option Nat
  parameters : Option Nat
  arguments : Option Nat
  /-- The greatest distance of a jump. -/
  distance : Option Nat
deriving DecidableEq, Repr

namespace Limits

/-- Whether a value is within a limit. -/
def admits : Option Nat → Nat → Bool
  | none, _ => true
  | some limit, value => value ≤ limit

/-- The value, or the limit if it is beyond it. -/
def clamp : Option Nat → Nat → Nat
  | none, value => value
  | some limit, value => min value limit

/-- The limits of operands of one byte, and of two bytes for jumps. -/
def byte : Limits := ⟨some 255, some 256, some 256, some 255, some 255, some 65535⟩

/-- No limits. -/
def unbounded : Limits := ⟨none, none, none, none, none, none⟩

end Limits

/-- What a code cell holds and which operands fit. -/
structure Width (β : Type) where
  /-- A cell with a value, which is within the limits. -/
  cell : Nat → β
  limits : Limits

namespace Width

/-- Code of bytes. -/
def byte : Width UInt8 := ⟨UInt8.ofNat, .byte⟩

/-- Code with operands of any size. -/
def unbounded : Width Nat := ⟨id, .unbounded⟩

end Width

end LoxCompiler
