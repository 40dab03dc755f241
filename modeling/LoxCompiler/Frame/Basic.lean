import LoxCompiler.Bytecode.Function
import LoxCompiler.Bytecode.Width
import LoxCompiler.Diagnostic

/-! # Frames

A frame is a function under construction: its code so far, and what the compiler knows about
its variables. Locals live in the slots of the running function in the order of their
declaration, so the slot of a local is the number of locals before it.
-/

namespace LoxCompiler

/-- The kinds of function. -/
inductive FunctionKind where
  | function
  /-- A method with the name of initializers, which returns its receiver. -/
  | initializer
  | method
  /-- The top-level code. -/
  | script
deriving DecidableEq, Repr

/-- A local variable. Its depth is that of the scope that declares it, once it may be read. -/
structure Local where
  name : Symbol
  depth : Option Nat
  /-- Whether a closure captures it. -/
  captured : Bool
deriving DecidableEq, Repr

/-- Where a closure takes a captured variable from: a slot of the enclosing function, or a
variable that the enclosing function has captured itself. -/
structure Upvalue where
  isLocal : Bool
  index : Nat
deriving DecidableEq, Repr

/-- A function under construction. Its locals are listed newest first. -/
structure Frame (β : Type) where
  kind : FunctionKind
  name : Option Symbol
  arity : Nat
  code : Array β
  lines : Array Nat
  constants : Array (Constant β)
  /-- The offsets of the operands of the forward jumps that lead nowhere yet. -/
  openJumps : List Nat
  locals : List Local
  upvalues : List Upvalue
  scopeDepth : Nat

namespace Local

/-- The newest local of a name, with its slot. -/
def find? (name : Symbol) : List Local → Option (Nat × Local)
  | [] => none
  | l :: older => if l.name = name then some (older.length, l) else find? name older

/-- Mark the newest local of a name as captured. -/
def capture (name : Symbol) : List Local → List Local
  | [] => []
  | l :: older =>
      if l.name = name then { l with captured := true } :: older
      else l :: capture name older

/-- Whether a local belongs to a scope of at least the given depth. One that may not be read
yet belongs to the innermost scope. -/
def declaredWithin (depth : Nat) (l : Local) : Bool :=
  match l.depth with
  | some d => depth ≤ d
  | none => true

end Local

namespace Frame

variable {β : Type}

/-- A function without code. Its first slot holds the receiver. -/
def new (kind : FunctionKind) (name : Option Symbol) (receiver : Symbol) : Frame β :=
  { kind, name, arity := 0, code := #[], lines := #[], constants := #[]
    openJumps := [], locals := [⟨receiver, some 0, false⟩], upvalues := []
    scopeDepth := 0 }

/-- Append a code cell with its source line. -/
def write (frame : Frame β) (cell : β) (line : Nat) : Frame β :=
  { frame with code := frame.code.push cell, lines := frame.lines.push line }

/-- Note a forward jump that leads nowhere yet. -/
def openJump (frame : Frame β) (operand : Nat) : Frame β :=
  { frame with openJumps := operand :: frame.openJumps }

/-- Write the two cells of a forward jump's operand. -/
def closeJump (frame : Frame β) (operand : Nat) (high low : β) : Frame β :=
  { frame with
    code := (frame.code.setIfInBounds operand high).setIfInBounds (operand + 1) low
    openJumps := frame.openJumps.erase operand }

/-- Append a constant. -/
def addConstant (frame : Frame β) (value : Constant β) : Frame β :=
  { frame with constants := frame.constants.push value }

/-- The slot of the newest local of a name, and whether it may be read. -/
def resolveLocal (frame : Frame β) (name : Symbol) : Option (Nat × Bool) :=
  (Local.find? name frame.locals).map fun (slot, l) => (slot, l.depth.isSome)

/-- Whether the innermost scope declares a name. -/
def declaredInScope (frame : Frame β) (name : Symbol) : Bool :=
  (frame.locals.takeWhile (·.declaredWithin frame.scopeDepth)).any (·.name = name)

/-- Declare a local, which may not be read yet. -/
def addLocal (limits : Limits) (frame : Frame β) (name : Symbol) :
    Except Diagnostic.Problem (Frame β) :=
  if Limits.admits limits.locals (frame.locals.length + 1) then
    .ok { frame with locals := ⟨name, none, false⟩ :: frame.locals }
  else .error .tooManyLocals

/-- Forget the newest local. -/
def dropLocal (frame : Frame β) : Frame β := { frame with locals := frame.locals.drop 1 }

/-- Allow the newest local to be read, if it was not allowed before. Outside all scopes there
are no locals to allow. -/
def markInitialized (frame : Frame β) : Frame β :=
  if frame.scopeDepth = 0 then frame
  else
    match frame.locals with
    | ⟨name, none, captured⟩ :: older =>
        { frame with locals := ⟨name, some frame.scopeDepth, captured⟩ :: older }
    | _ => frame

/-- Mark the newest local of a name as captured. -/
def captureLocal (frame : Frame β) (name : Symbol) : Frame β :=
  { frame with locals := Local.capture name frame.locals }

/-- The index of a captured variable, which is added if it is new. -/
def addUpvalue (limits : Limits) (frame : Frame β) (upvalue : Upvalue) :
    Except Diagnostic.Problem (Frame β × Nat) :=
  match frame.upvalues.idxOf? upvalue with
  | some index => .ok (frame, index)
  | none =>
      if Limits.admits limits.upvalues (frame.upvalues.length + 1) then
        .ok ({ frame with upvalues := frame.upvalues ++ [upvalue] }, frame.upvalues.length)
      else .error .tooManyUpvalues

/-- The finished function. -/
def finish (frame : Frame β) : Function β :=
  { name := frame.name, arity := frame.arity, upvalueCount := frame.upvalues.length
    code := frame.code.toList, lines := frame.lines.toList
    constants := frame.constants.toList }

end Frame

end LoxCompiler
