import LoxCompiler.Grammar.Statement

/-! # Functions and classes -/

namespace LoxCompiler.Compile

variable {β : Type} {c : Settings β} (inner : Inner c)

/-- The name in the last token taken, or the anonymous one if it is none. -/
def previousName : Compile c Symbol := do
  match (← previous).kind with
  | .identifier name => return name
  | _ => return .anonymous

/-- A parameter, with some parameters before it. -/
def parameter (count : Nat) : Compile c Unit := do
  measure (.parameters (count + 1))
  if !Limits.admits c.limits.parameters (count + 1) then reportCurrent .tooManyParameters
  defineVariable (← declaredName "Expect parameter name.")

/-- The parameters of a function up to its closing parenthesis. -/
def parameterList : Compile c Unit := do
  let count ← if ← check .closeParen then pure 0 else separated parameter inner.budget 0
  let arity := Limits.clamp c.limits.parameters count
  modifyFrame fun frame => { frame with arity }

/-- A function after its name. Its closure is made in the enclosing function. The scope of the
parameters ends with the function, so nothing drops them one by one. -/
def function (kind : FunctionKind) : Compile c Unit := do
  beginFrame kind (some (← previousName))
  beginScope
  consume .openParen "Expect '(' after function name."
  parameterList inner
  consume .closeParen "Expect ')' after parameters."
  consume .openBrace "Expect '\x7b' before function body."
  block inner
  let (function, upvalues) ← endFrame
  emitWith .closure (← addConstant (.function function))
  upvalues.forM fun upvalue => do
    emitCell (if upvalue.isLocal then 1 else 0)
    emitCell upvalue.index

/-- A function declaration. The function may refer to itself. -/
def funDeclaration : Compile c Unit := do
  let global ← declaredName "Expect function name."
  markInitialized
  function inner .function
  defineVariable global

/-- A method of the class on the stack. -/
def method : Compile c Unit := do
  let name ← consumeIdentifier "Expect method name."
  let constant ← addName name
  let kind := if name = (← read).names.init then .initializer else .method
  function inner kind
  emitWith .method constant

/-- The superclass of a class. It is bound to a local of a scope around the methods, which
capture it from there. -/
def superclassClause (className : Symbol) : Compile c Unit := do
  let superclass ← consumeIdentifier "Expect superclass name."
  loadVariable superclass
  if superclass = className then report .inheritFromSelf
  beginScope
  addLocal (← read).names.super
  defineVariable 0
  loadVariable className
  emit .inherit
  markSuperclass

/-- A class declaration. The class is loaded once more while its methods are bound to it. -/
def classDeclaration : Compile c Unit := do
  let name ← consumeIdentifier "Expect class name."
  let constant ← addName name
  declareVariable name
  emitWith .makeClass constant
  defineVariable constant
  beginClass
  if ← accept (.operator .less) then superclassClause name
  loadVariable name
  consume .openBrace "Expect '\x7b' before class body."
  repeatWhile (return !(← check .closeBrace) && !(← check .endOfInput)) (method inner)
    inner.budget
  consume .closeBrace "Expect '\x7d' after class body."
  emit .pop
  let context ← endClass
  if context.hasSuperclass then endScope

/-- A declaration or statement. After a problem, what follows it is skipped up to the next
boundary. -/
def declarationStep : Compile c Unit := do
  if ← accept (.keyword .classWord) then classDeclaration inner
  else if ← accept (.keyword .funWord) then funDeclaration inner
  else if ← accept (.keyword .varWord) then varDeclaration inner
  else statementStep inner
  recover

mutual

/-- Compile a declaration, with at most some number of statements inside each other. -/
def declaration : Nat → Compile c Unit
  | 0 => throw .outOfBudget
  | budget + 1 => fun s =>
      declarationStep ⟨declaration budget, statement budget, budget + 1⟩ s

/-- Compile a statement, with at most some number of statements inside each other. -/
def statement : Nat → Compile c Unit
  | 0 => throw .outOfBudget
  | budget + 1 => fun s =>
      statementStep ⟨declaration budget, statement budget, budget + 1⟩ s

end

/-- Compile all declarations up to the end of the input. -/
def script (budget : Nat) : Compile c (Function β) := do
  repeatWhile (return !(← accept .endOfInput)) (declaration budget) budget
  let (function, _) ← endFrame
  return function

end LoxCompiler.Compile
