/-! # Quantities

The numbers that a program leads to and that its code has to hold.
-/

namespace LoxCompiler

/-- A number that the code of a program has to hold. -/
inductive Quantity where
  /-- The index of a new constant. -/
  | constantIndex (index : Nat)
  /-- The slot of a new local. -/
  | slot (slot : Nat)
  /-- The index of a variable that a function captures for the first time. -/
  | upvalueIndex (index : Nat)
  /-- The number of the parameters of a function up to one of them. -/
  | parameters (count : Nat)
  /-- The number of the arguments of a call up to one of them. -/
  | arguments (count : Nat)
  /-- The distance of a forward jump. -/
  | jump (distance : Nat)
  /-- The distance of a backward jump. -/
  | loop (distance : Nat)
deriving DecidableEq, Repr

end LoxCompiler
