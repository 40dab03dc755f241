import LoxCompiler.Session.Scope

/-! # Functions under construction -/

namespace LoxCompiler.Compile

variable {β : Type} {c : Settings β}

/-- Start a function. Its first slot holds the receiver in methods, and nothing that can be
named in other functions. -/
def beginFrame (kind : FunctionKind) (name : Option Symbol) : Compile c Unit :=
  modify fun s =>
    let receiver :=
      match kind with
      | .method | .initializer => s.names.this
      | .function | .script => .anonymous
    { s with frames := .new kind name receiver :: s.frames }

/-- Finish the innermost function, and give it with what it captures. -/
def endFrame : Compile c (Function β × List Upvalue) := do
  emitReturn
  let frame ← change fun s => do
    let (frame, outer) ← s.frames.pop
    return (frame, { s with frames := outer })
  note (.compiled frame.kind (← previous).position.line frame.code.size frame.constants.size
    frame.upvalues.length)
  return (frame.finish, frame.upvalues)

/-- Enter the body of a class. -/
def beginClass : Compile c Unit :=
  modify fun s => { s with classes := ⟨false⟩ :: s.classes }

/-- The class whose body is being compiled now has a superclass. -/
def markSuperclass : Compile c Unit :=
  modify fun s => { s with classes := s.classes.modifyHead fun _ => ⟨true⟩ }

/-- Leave the body of a class. -/
def endClass : Compile c ClassContext :=
  change fun s =>
    match s.classes with
    | [] => .error .emptyClassStack
    | context :: outer => .ok (context, { s with classes := outer })

end LoxCompiler.Compile
