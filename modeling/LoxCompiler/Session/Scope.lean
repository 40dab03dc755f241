import LoxCompiler.Session.Code

/-! # Scopes and variables

Variables declared outside all scopes are global: they are defined at run time and found by
name. All others are locals.
-/

namespace LoxCompiler.Compile

variable {β : Type} {c : Settings β}

/-- Enter a scope. -/
def beginScope : Compile c Unit :=
  modifyFrame fun frame => { frame with scopeDepth := frame.scopeDepth + 1 }

/-- The instruction that drops a local: captured ones are kept for their closures. -/
def dropInstruction (l : Local) : Opcode := if l.captured then .closeUpvalue else .pop

/-- Leave the innermost scope and drop its locals, newest first. -/
def endScope : Compile c Unit := do
  let frame ← frame
  match frame.scopeDepth with
  | 0 => throw .noScope
  | depth + 1 =>
      let inside := fun (l : Local) => l.declaredWithin (depth + 1)
      let dropped := frame.locals.takeWhile inside
      modifyFrame fun frame =>
        { frame with scopeDepth := depth, locals := frame.locals.dropWhile inside }
      dropped.forM fun l => emit (dropInstruction l)
      note (.scopeLeft depth dropped.length)

/-- Declare a local that may not be read yet. -/
def addLocal (name : Symbol) : Compile c Unit := do
  let frame ← frame
  measure (.slot frame.locals.length)
  match frame.addLocal c.limits name with
  | .ok frame => modifyFrame fun _ => frame
  | .error problem => report problem

/-- Declare a variable in the innermost scope. Globals need no declaration. -/
def declareVariable (name : Symbol) : Compile c Unit := do
  let frame ← frame
  if frame.scopeDepth ≠ 0 then
    if frame.declaredInScope name then report .duplicateVariable
    addLocal name

/-- Allow the newest local to be read. -/
def markInitialized : Compile c Unit := modifyFrame (·.markInitialized)

/-- Read the name of a variable and declare it. A global also needs its name as a constant,
whose index is given. -/
def declaredName (message : String) : Compile c Nat := do
  let name ← consumeIdentifier message
  declareVariable name
  if 0 < (← frame).scopeDepth then return 0
  else addName name

/-- Make a declared variable available: a local may be read from here on, and a global is
defined. -/
def defineVariable (global : Nat) : Compile c Unit := do
  if 0 < (← frame).scopeDepth then markInitialized
  else emitWith .defineGlobal global

/-- The slot of a local of the innermost function. -/
def resolveLocal (name : Symbol) : Compile c (Option Nat) := do
  match (← frame).resolveLocal name with
  | none => return none
  | some (slot, initialized) =>
      if !initialized then report .selfReferentialInitializer
      return some slot

/-- Let all functions up to the owner of a variable capture it. -/
def capture (name : Symbol) : Compile c (Except Diagnostic.Problem (Option Nat)) :=
  change fun s =>
    let (frames, answer) := s.frames.resolveUpvalue c.limits name
    .ok (answer, { s with frames })

/-- Let all functions up to the owner of a variable capture it, and note the indices that it
gets in those that have not captured it before. -/
def captureVariable (name : Symbol) :
    Compile c (Except Diagnostic.Problem (Option Nat)) := do
  let before := (← read).frames
  let answer ← capture name
  let captured := before.newUpvalues (← read).frames
  captured.forM fun index => measure (.upvalueIndex index)
  return answer

/-- The index of a captured variable of the innermost function. A variable that cannot be
captured is reported and gets the first index. -/
def resolveUpvalue (name : Symbol) : Compile c (Option Nat) := do
  match ← captureVariable name with
  | .ok index => return index
  | .error problem =>
      report problem
      return some 0

end LoxCompiler.Compile
