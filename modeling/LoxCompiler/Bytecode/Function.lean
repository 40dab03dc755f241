import LoxCompiler.Number.Shortest
import LoxCompiler.Symbol

/-! # Functions and constants

The result of compiling: a function with its code, the source line of each code cell, and the
constants that its code refers to, nested functions among them. What a code cell holds is a
parameter `β`. Real code consists of bytes; cells without a limit, natural numbers, describe
what the same program would need if operands could grow.
-/

namespace LoxCompiler

mutual

/-- An entry of a constant pool. -/
inductive Constant (β : Type) where
  | number (value : Binary64)
  | string (value : Symbol)
  | function (value : Function β)

/-- A compiled function. The script itself is one, and the only one without a name. -/
structure Function (β : Type) where
  name : Option Symbol
  arity : Nat
  /-- How many variables of enclosing functions it captures: the number of descriptors after
  the instruction that makes a closure of it. -/
  upvalueCount : Nat
  code : List β
  /-- The source line of each code cell. -/
  lines : List Nat
  constants : List (Constant β)

end

variable {β : Type}

instance : Inhabited (Function β) := ⟨⟨none, 0, 0, [], [], []⟩⟩

/-- The function in a constant, if it is one. -/
def Constant.function? : Constant β → Option (Function β)
  | .function f => some f
  | _ => none

mutual

/-- A function and all functions nested in it, each directly before those nested in itself,
in the order of the constant pools. -/
def Function.family : Function β → List (Function β)
  | ⟨name, arity, upvalueCount, code, lines, constants⟩ =>
      ⟨name, arity, upvalueCount, code, lines, constants⟩ :: Constant.families constants

/-- The functions in some constants, with all functions nested in them. -/
def Constant.families : List (Constant β) → List (Function β)
  | [] => []
  | .function f :: constants => Function.family f ++ Constant.families constants
  | .number _ :: constants => Constant.families constants
  | .string _ :: constants => Constant.families constants

end

namespace SymbolTable

/-- The text of a constant: a number, a string in quotes, or the name of a function. -/
def renderConstant (table : SymbolTable) : Constant β → String
  | .number value => value.toText
  | .string value => "\"" ++ table.render value ++ "\""
  | .function f =>
      match f.name with
      | some name => "<fn " ++ table.render name ++ ">"
      | none => "<script>"

end SymbolTable

end LoxCompiler
