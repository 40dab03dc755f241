import LoxCompiler.Bytecode.Function
import LoxCompiler.Bytecode.Opcode
import LoxCompiler.Text.Bytes

/-! # Instructions

Code bytes are read as a sequence of instructions with their offsets. Reading is defined for
all bytes: a byte that is no opcode is an instruction of its own, and operands cut off by the
end of the code end the sequence.
-/

namespace LoxCompiler

/-- One instruction with its operands. -/
inductive Instruction where
  | simple (op : Opcode)
  | byte (op : Opcode) (operand : UInt8)
  | constant (op : Opcode) (index : UInt8)
  /-- A jump, with the offset where it leads. -/
  | jump (op : Opcode) (distance target : Nat)
  | invoke (op : Opcode) (name arguments : UInt8)
  /-- A closure, with a descriptor for every captured variable: whether it is a local of the
  enclosing function, and its slot there or its place among the captured variables there. -/
  | closure (function : UInt8) (upvalues : List (Bool × UInt8))
  /-- A byte that is no opcode. -/
  | unknown (b : UInt8)
  /-- An opcode whose operands are cut off by the end of the code. -/
  | truncated (op : Opcode)
deriving DecidableEq, Repr

namespace Instruction

/-- The number of bytes of a whole instruction, its opcode counted. -/
def size : Instruction → Nat
  | .simple _ => 1
  | .byte _ _ => 2
  | .constant _ _ => 2
  | .jump _ _ _ => 3
  | .invoke _ _ _ => 3
  | .closure _ upvalues => 2 + 2 * upvalues.length
  | .unknown _ => 1
  | .truncated _ => 1

/-- How many descriptors follow a closure over a constant. -/
def upvalueCount (constants : List (Constant UInt8)) (function : UInt8) : Nat :=
  match constants[function.toNat]? with
  | some (.function f) => f.upvalueCount
  | _ => 0

/-- Read some number of descriptors, if there are enough bytes. -/
def readUpvalues : Nat → Bytes → Option (List (Bool × UInt8) × Bytes)
  | 0, rest => some ([], rest)
  | n + 1, isLocal :: index :: rest =>
      match readUpvalues n rest with
      | some (upvalues, rest) => some ((isLocal != 0, index) :: upvalues, rest)
      | none => none
  | _ + 1, _ => none

/-- Where a jump leads: its distance counts from the end of its operand. -/
def jumpTarget (op : Opcode) (offset distance : Nat) : Nat :=
  if op = .loop then offset + 3 - distance else offset + 3 + distance

/-- Read the operands of an opcode at an offset, if there are enough bytes. -/
def readOperands (constants : List (Constant UInt8)) (offset : Nat) (op : Opcode)
    (rest : Bytes) : Option (Instruction × Bytes) :=
  match op.operands, rest with
  | .none, rest => some (.simple op, rest)
  | .byte, operand :: rest => some (.byte op operand, rest)
  | .constant, index :: rest => some (.constant op index, rest)
  | .jump, high :: low :: rest =>
      let distance := high.toNat * 256 + low.toNat
      some (.jump op distance (jumpTarget op offset distance), rest)
  | .invoke, name :: arguments :: rest => some (.invoke op name arguments, rest)
  | .closure, function :: rest =>
      match readUpvalues (upvalueCount constants function) rest with
      | some (upvalues, rest) => some (.closure function upvalues, rest)
      | none => none
  | _, _ => none

/-- Read the code from an offset on, newest instruction first. Every instruction takes a byte,
so the number of bytes left is fuel enough. -/
def readOnto (constants : List (Constant UInt8)) :
    Nat → List (Nat × Instruction) → Nat → Bytes → List (Nat × Instruction)
  | 0, read, _, _ => read
  | _ + 1, read, _, [] => read
  | fuel + 1, read, offset, b :: rest =>
      match Opcode.ofByte? b with
      | none => readOnto constants fuel ((offset, .unknown b) :: read) (offset + 1) rest
      | some op =>
          match readOperands constants offset op rest with
          | some (instruction, rest) =>
              readOnto constants fuel ((offset, instruction) :: read)
                (offset + instruction.size) rest
          | none => (offset, .truncated op) :: read

end Instruction

/-- The instructions of a function with their offsets. -/
def Function.instructions (f : Function UInt8) : List (Nat × Instruction) :=
  (Instruction.readOnto f.constants f.code.length [] 0 f.code).reverse

end LoxCompiler
