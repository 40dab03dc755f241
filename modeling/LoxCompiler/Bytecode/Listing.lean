import LoxCompiler.Bytecode.Instruction

/-! # Listings

The instructions of a function and of those nested in it, for people to read.
-/

namespace LoxCompiler.Listing

open Text (Colour)

/-- An opcode's name in its column. -/
def opcode (op : Opcode) : String := Colour.blue.paint (Text.fillRight 16 op.name)

/-- An index of the constant pool and the constant there. -/
def constant (table : SymbolTable) (constants : List (Constant UInt8)) (index : UInt8) :
    String :=
  Text.column index.toNat ++ " " ++
    match constants[index.toNat]? with
    | some value => table.renderConstant value
    | none => Colour.red.paint "<invalid constant>"

/-- The descriptor of a captured variable, on a line of its own. -/
def upvalue (offset : Nat) (descriptor : Bool × UInt8) : String :=
  "\n" ++ Text.offset offset ++ "    |                     " ++
    (if descriptor.1 then "local" else "upvalue") ++ " " ++ toString descriptor.2.toNat

/-- The descriptors of a closure, each two bytes after the one before. -/
def upvalues (offset : Nat) : List (Bool × UInt8) → List String
  | [] => []
  | descriptor :: rest => upvalue offset descriptor :: upvalues (offset + 2) rest

/-- An instruction with its operands. -/
def instruction (table : SymbolTable) (constants : List (Constant UInt8)) (offset : Nat) :
    Instruction → String
  | .simple op => opcode op
  | .byte op operand => opcode op ++ Text.column operand.toNat
  | .constant op index => opcode op ++ constant table constants index
  | .jump op _ target => opcode op ++ Text.column offset ++ " -> " ++ toString target
  | .invoke op name arguments =>
      opcode op ++ "(" ++ toString arguments.toNat ++ " args) " ++
        constant table constants name
  | .closure function descriptors =>
      opcode .closure ++ constant table constants function ++
        String.join (upvalues (offset + 2) descriptors)
  | .unknown b => Colour.red.paint ("Unknown opcode " ++ toString b.toNat)
  | .truncated op => opcode op ++ Colour.red.paint "<truncated>"

/-- The column of source lines: a bar where the line is that of the instruction before, and
zero where it is not known. -/
def line (previous current : Option Nat) : String :=
  if current = previous then "   | " else Text.column (current.getD 0) ++ " "

/-- The heading of a function. -/
def heading (table : SymbolTable) (f : Function UInt8) : String :=
  let mark := Colour.yellow.paint "=="
  let name :=
    match f.name with
    | some name => table.render name
    | none => "<script>"
  mark ++ " " ++ name ++ " " ++ mark ++ "\n"

/-- The heading and the instructions of one function. -/
def function (table : SymbolTable) (f : Function UInt8) : String :=
  let lineTable := f.lines.toArray
  let instructions := f.instructions
  let lines := instructions.map fun (offset, _) => lineTable[offset]?
  let row := fun (entry : Nat × Instruction) (lines : Option Nat × Option Nat) =>
    Text.offset entry.1 ++ " " ++ line lines.1 lines.2 ++
      instruction table f.constants entry.1 entry.2 ++ "\n"
  heading table f ++ String.join (instructions.zipWith row ((none :: lines).zip lines))

/-- The listing of a function and of all functions nested in it, with blank lines between. -/
def ofFunction (table : SymbolTable) (f : Function UInt8) : String :=
  "\n".intercalate (f.family.map (function table))

end LoxCompiler.Listing
