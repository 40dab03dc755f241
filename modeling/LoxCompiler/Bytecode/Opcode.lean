/-! # Opcodes

An instruction is one byte of opcode and the operands that its shape asks for. Constants and
slots are operands of one byte, jump distances are big-endian operands of two.
-/

namespace LoxCompiler

/-- The operations of the stack machine, in the order of their bytes. -/
inductive Opcode where
  /-- Push a constant. -/
  | constant
  /-- Push nil. -/
  | pushNil
  /-- Push true. -/
  | pushTrue
  /-- Push false. -/
  | pushFalse
  /-- Drop the top of the stack. -/
  | pop
  /-- Push the value in a slot. -/
  | getLocal
  /-- Store the top of the stack in a slot. -/
  | setLocal
  /-- Push a global variable. -/
  | getGlobal
  /-- Take the top of the stack as the value of a new global variable. -/
  | defineGlobal
  /-- Store the top of the stack in a global variable. -/
  | setGlobal
  /-- Push a captured variable. -/
  | getUpvalue
  /-- Store the top of the stack in a captured variable. -/
  | setUpvalue
  /-- Replace an object by one of its properties. -/
  | getProperty
  /-- Store the top of the stack in a property of the object below it. -/
  | setProperty
  /-- Replace a receiver and a superclass by a bound method. -/
  | getSuper
  | equal
  | greater
  | less
  | add
  | subtract
  | multiply
  | divide
  | not
  | negate
  | print
  /-- Go on further ahead. -/
  | jump
  /-- Go on further ahead if the top of the stack is falsey. -/
  | jumpIfFalse
  /-- Go back. -/
  | loop
  /-- Call a value with the arguments above it. -/
  | call
  /-- Look up a method by name and call it. -/
  | invoke
  /-- Look up a method of a superclass by name and call it. -/
  | superInvoke
  /-- Make a closure of a function constant. A descriptor of two bytes follows for every
  variable that it captures. -/
  | closure
  /-- Drop the top of the stack, and keep it for the closures that captured it. -/
  | closeUpvalue
  /-- Leave the function. -/
  | ret
  /-- Push a new class. -/
  | makeClass
  /-- Copy the methods of the superclass below the top of the stack. -/
  | inherit
  /-- Bind a method to the class below it. -/
  | method
deriving DecidableEq, Repr

/-- What follows an opcode. -/
inductive OperandShape where
  | none
  /-- A slot, the index of a captured variable, or a number of arguments. -/
  | byte
  /-- An index of the constant pool. -/
  | constant
  /-- A jump distance of two bytes. -/
  | jump
  /-- An index of the constant pool and a number of arguments. -/
  | invoke
  /-- An index of the constant pool and descriptors of captured variables. -/
  | closure
deriving DecidableEq, Repr

namespace Opcode

/-- All opcodes. The place of an opcode in this list is its byte. -/
def all : List Opcode :=
  [.constant, .pushNil, .pushTrue, .pushFalse, .pop, .getLocal, .setLocal, .getGlobal,
    .defineGlobal, .setGlobal, .getUpvalue, .setUpvalue, .getProperty, .setProperty, .getSuper,
    .equal, .greater, .less, .add, .subtract, .multiply, .divide, .not, .negate, .print, .jump,
    .jumpIfFalse, .loop, .call, .invoke, .superInvoke, .closure, .closeUpvalue, .ret, .makeClass,
    .inherit, .method]

/-- The byte of an opcode. -/
def toByte (op : Opcode) : UInt8 := UInt8.ofNat (all.idxOf op)

/-- The opcode of a byte, if it has one. -/
def ofByte? (b : UInt8) : Option Opcode := all[b.toNat]?

@[simp] theorem ofByte?_toByte (op : Opcode) : ofByte? op.toByte = some op := by
  cases op <;> rfl

/-- The operands of an opcode. -/
def operands : Opcode → OperandShape
  | .getLocal | .setLocal | .getUpvalue | .setUpvalue | .call => .byte
  | .constant | .getGlobal | .defineGlobal | .setGlobal | .getProperty | .setProperty
  | .getSuper | .makeClass | .method => .constant
  | .jump | .jumpIfFalse | .loop => .jump
  | .invoke | .superInvoke => .invoke
  | .closure => .closure
  | _ => .none

/-- The name of an opcode in listings. -/
def name : Opcode → String
  | .constant => "Constant"
  | .pushNil => "Nil"
  | .pushTrue => "True"
  | .pushFalse => "False"
  | .pop => "Pop"
  | .getLocal => "GetLocal"
  | .setLocal => "SetLocal"
  | .getGlobal => "GetGlobal"
  | .defineGlobal => "DefineGlobal"
  | .setGlobal => "SetGlobal"
  | .getUpvalue => "GetUpvalue"
  | .setUpvalue => "SetUpvalue"
  | .getProperty => "GetProperty"
  | .setProperty => "SetProperty"
  | .getSuper => "GetSuper"
  | .equal => "Equal"
  | .greater => "Greater"
  | .less => "Less"
  | .add => "Add"
  | .subtract => "Subtract"
  | .multiply => "Multiply"
  | .divide => "Divide"
  | .not => "Not"
  | .negate => "Negate"
  | .print => "Print"
  | .jump => "Jump"
  | .jumpIfFalse => "JumpIfFalse"
  | .loop => "Loop"
  | .call => "Call"
  | .invoke => "Invoke"
  | .superInvoke => "SuperInvoke"
  | .closure => "Closure"
  | .closeUpvalue => "CloseUpvalue"
  | .ret => "Return"
  | .makeClass => "Class"
  | .inherit => "Inherit"
  | .method => "Method"

end Opcode

end LoxCompiler
