import LoxCompiler.Proofs.Run.Clean
import LoxCompiler.Proofs.Syntax.Grammar

/-! # Compiling trees

What the compiler does while it reads the tokens of a tree, given the tree. There is nothing to
find out here: each token has to be there, and the tree says what comes next. So there is no
precedence and no budget, and no message says what was expected.
-/

namespace LoxCompiler

set_option synthInstance.maxSize 4096

open Compile

variable {β : Type} {w : Width β}

namespace Compile

/-- Push the value of a literal. -/
def pushLiteral : Literal Symbol → Compile w.settings Unit
  | .nil => emit .pushNil
  | .boolean true => emit .pushTrue
  | .boolean false => emit .pushFalse
  | .number value => emitConstant (.number value)
  | .string value => emitConstant (.string value)

/-- An argument with some number of arguments before it was compiled. -/
def checkArgument (count : Nat) : Compile w.settings Unit := do
  if w.limits.arguments = some count then report .tooManyArguments

/-- The method of a superclass, with the receiver. The answer is the index of its name and the
name of the variable that holds the superclass. -/
def superMethod (name : Symbol) : Compile w.settings (Nat × Symbol) := do
  expect (.keyword .superWord)
  let problem := superProblem? (← read).classes
  problem.forM report
  expect .dot
  expect (.identifier name)
  let index ← addName name
  let names := (← read).names
  loadVariable names.this
  return (index, names.super)

end Compile

mutual

/-- Compile an expression. -/
def Expression.compile : Expression → Compile w.settings Unit
  | .literal value => do
      expect (.literal value)
      pushLiteral value
  | .variable name => do
      expect (.identifier name)
      let access ← access name
      emitWith access.get access.operand
  | .assign name value => do
      expect (.identifier name)
      let access ← access name
      expect (.operator .assign)
      value.compile
      emitWith access.set access.operand
  | .receiver => do
      expect (.keyword .thisWord)
      Compile.receiver
  | .superGet method => do
      let (index, super) ← superMethod method
      loadVariable super
      emitWith .getSuper index
  | .superCall method arguments => do
      let (index, super) ← superMethod method
      expect .openParen
      Expression.compileEach arguments 0
      expect .closeParen
      loadVariable super
      emitWith .superInvoke index
      emitCell (Limits.clamp w.limits.arguments arguments.length)
  | .group inner => do
      expect .openParen
      inner.compile
      expect .closeParen
  | .unary op operand => do
      expect (.operator op)
      operand.compile
      (unaryCode (.operator op)).forM emit
  | .binary op left right => do
      left.compile
      expect (.operator op)
      right.compile
      (binaryCode (.operator op)).forM emit
  | .and left right => do
      left.compile
      expect (.operator .and)
      let skip ← emitJump .jumpIfFalse
      emit .pop
      right.compile
      patchJump skip
  | .or left right => do
      left.compile
      expect (.operator .or)
      let next ← emitJump .jumpIfFalse
      let skip ← emitJump .jump
      patchJump next
      emit .pop
      right.compile
      patchJump skip
  | .call callee arguments => do
      callee.compile
      expect .openParen
      Expression.compileEach arguments 0
      expect .closeParen
      emitWith .call (Limits.clamp w.limits.arguments arguments.length)
  | .get object property => do
      object.compile
      expect .dot
      expect (.identifier property)
      let index ← addName property
      emitWith .getProperty index
  | .set object property value => do
      object.compile
      expect .dot
      expect (.identifier property)
      let index ← addName property
      expect (.operator .assign)
      value.compile
      emitWith .setProperty index
  | .invoke object method arguments => do
      object.compile
      expect .dot
      expect (.identifier method)
      let index ← addName method
      expect .openParen
      Expression.compileEach arguments 0
      expect .closeParen
      emitWith .invoke index
      emitCell (Limits.clamp w.limits.arguments arguments.length)

/-- Compile some arguments with commas between, with some number of arguments before them. -/
def Expression.compileEach : List Expression → Nat → Compile w.settings Unit
  | [], _ => pure ()
  | [argument], count => do
      argument.compile
      checkArgument count
  | argument :: next :: arguments, count => do
      argument.compile
      checkArgument count
      expect .comma
      Expression.compileEach (next :: arguments) (count + 1)

end

namespace Compile

/-- Declare a variable at its name. A global also needs its name as a constant, whose index is
given. -/
def declareNamed (name : Symbol) : Compile w.settings Nat := do
  expect (.identifier name)
  declareVariable name
  if 0 < (← frame).scopeDepth then return 0
  else addName name

/-- Compile the initial value of a variable, which is nil if it has none. -/
def compileInitial : Option Expression → Compile w.settings Unit
  | none => emit .pushNil
  | some value => do
      expect (.operator .assign)
      value.compile

/-- Declare a variable, with its initial value if it has one. -/
def compileVariable (name : Symbol) (value : Option Expression) : Compile w.settings Unit := do
  let global ← declareNamed name
  compileInitial value
  expect .semicolon
  defineVariable global

/-- Compile the condition of a counting loop. The answer is the jump out of the loop, if there
is one. -/
def compileCondition : Option Expression → Compile w.settings (Option Nat)
  | none => do
      expect .semicolon
      return none
  | some condition => do
      condition.compile
      expect .semicolon
      let exit ← emitJump .jumpIfFalse
      emit .pop
      return some exit

/-- Compile the increment of a counting loop that starts at an offset. The answer is where the
body goes on. -/
def compileIncrement (start : Nat) : Option Expression → Compile w.settings Nat
  | none => do
      expect .closeParen
      return start
  | some increment => do
      let body ← emitJump .jump
      let next ← codeSize
      increment.compile
      emit .pop
      expect .closeParen
      emitLoop start
      patchJump body
      return next

/-- Compile the parameters of a function, with some number of parameters before them. -/
def compileParameters : List Symbol → Nat → Compile w.settings Unit
  | [], _ => pure ()
  | [name], count => compileParameter name count
  | name :: next :: names, count => do
      compileParameter name count
      expect .comma
      compileParameters (next :: names) (count + 1)
where
  /-- Compile a parameter, with some number of parameters before it. -/
  compileParameter (name : Symbol) (count : Nat) : Compile w.settings Unit := do
    if !Limits.admits w.limits.parameters (count + 1) then reportCurrent .tooManyParameters
    defineVariable (← declareNamed name)

/-- Compile the superclass of a class, if it has one. -/
def compileSuperclass (name : Symbol) : Option Symbol → Compile w.settings Unit
  | none => pure ()
  | some superclass => do
      expect (.operator .less)
      expect (.identifier superclass)
      loadVariable superclass
      if superclass = name then report .inheritFromSelf
      beginScope
      addLocal (← read).names.super
      defineVariable 0
      loadVariable name
      emit .inherit
      markSuperclass

/-- Bind the methods of a class to it, given how to compile them. -/
def compileClassBody (name : Symbol) (methods : Compile w.settings Unit) :
    Compile w.settings Unit := do
  loadVariable name
  expect .openBrace
  methods
  expect .closeBrace
  emit .pop
  let context ← endClass
  if context.hasSuperclass then endScope

end Compile

/-- Compile the first clause of a counting loop. -/
def Initializer.compile : Initializer → Compile w.settings Unit
  | .absent => expect .semicolon
  | .variable name value => do
      expect (.keyword .varWord)
      compileVariable name value
  | .expression value => do
      value.compile
      expect .semicolon
      emit .pop

mutual

/-- Compile a statement. -/
def Statement.compile : Statement → Compile w.settings Unit
  | .expression value => do
      value.compile
      expect .semicolon
      emit .pop
  | .print value => do
      expect (.keyword .printWord)
      value.compile
      expect .semicolon
      emit .print
  | .ifThen condition body => do
      expect (.keyword .ifWord)
      expect .openParen
      condition.compile
      expect .closeParen
      let otherwise ← emitJump .jumpIfFalse
      emit .pop
      body.compile
      let done ← emitJump .jump
      patchJump otherwise
      emit .pop
      patchJump done
  | .ifElse condition body other => do
      expect (.keyword .ifWord)
      expect .openParen
      condition.compile
      expect .closeParen
      let otherwise ← emitJump .jumpIfFalse
      emit .pop
      body.compile
      let done ← emitJump .jump
      patchJump otherwise
      emit .pop
      expect (.keyword .elseWord)
      other.compile
      patchJump done
  | .whileLoop condition body => do
      expect (.keyword .whileWord)
      let start ← codeSize
      expect .openParen
      condition.compile
      expect .closeParen
      let exit ← emitJump .jumpIfFalse
      emit .pop
      body.compile
      emitLoop start
      patchJump exit
      emit .pop
  | .forLoop first condition increment body => do
      expect (.keyword .forWord)
      beginScope
      expect .openParen
      first.compile
      let start ← codeSize
      let exit ← compileCondition condition
      let next ← compileIncrement start increment
      body.compile
      emitLoop next
      leaveLoop exit
      endScope
  | .ret none => do
      expect (.keyword .returnWord)
      let kind := (← frame).kind
      if kind = .script then report .returnFromScript
      expect .semicolon
      emitReturn
  | .ret (some value) => do
      expect (.keyword .returnWord)
      let kind := (← frame).kind
      if kind = .script then report .returnFromScript
      if kind = .initializer then report .returnValueFromInitializer
      value.compile
      expect .semicolon
      emit .ret
  | .block inner => do
      expect .openBrace
      beginScope
      Declaration.compileEach inner
      expect .closeBrace
      endScope

/-- Compile a declaration. -/
def Declaration.compile : Declaration → Compile w.settings Unit
  | .classDeclaration name superclass methods => do
      expect (.keyword .classWord)
      expect (.identifier name)
      let constant ← addName name
      declareVariable name
      emitWith .makeClass constant
      defineVariable constant
      beginClass
      compileSuperclass name superclass
      compileClassBody name (FunctionTree.compileMethods methods)
  | .funDeclaration f => do
      expect (.keyword .funWord)
      let global ← declareNamed f.name
      markInitialized
      FunctionTree.compile .function f
      defineVariable global
  | .varDeclaration name value => do
      expect (.keyword .varWord)
      compileVariable name value
  | .statement s => s.compile

/-- Compile some declarations in a row. -/
def Declaration.compileEach : List Declaration → Compile w.settings Unit
  | [] => pure ()
  | d :: ds => do
      d.compile
      Declaration.compileEach ds

/-- Compile a function after its name. -/
def FunctionTree.compile (kind : FunctionKind) : FunctionTree → Compile w.settings Unit
  | .mk name parameters body => do
      beginFrame kind (some name)
      beginScope
      expect .openParen
      compileParameters parameters 0
      let arity := Limits.clamp w.limits.parameters parameters.length
      modifyFrame fun frame => { frame with arity }
      expect .closeParen
      expect .openBrace
      Declaration.compileEach body
      expect .closeBrace
      emitClosure (← endFrame)

/-- Compile some methods in a row, each with its name. -/
def FunctionTree.compileMethods : List FunctionTree → Compile w.settings Unit
  | [] => pure ()
  | f :: fs => do
      expect (.identifier f.name)
      let constant ← addName f.name
      let kind := if f.name = (← read).names.init then .initializer else .method
      FunctionTree.compile kind f
      emitWith .method constant
      FunctionTree.compileMethods fs

end

/-- Compile a program. -/
def Declaration.compileProgram (ds : List Declaration) : Compile w.settings (Function β) := do
  Declaration.compileEach ds
  expect .endOfInput
  return (← endFrame).1

/-! ## Trees are compiled by orderly steps -/

instance (value : Literal Symbol) : Orderly (pushLiteral value : Compile w.settings Unit) := by
  unfold pushLiteral
  split <;> infer_instance

instance (count : Nat) : Orderly (checkArgument count : Compile w.settings Unit) := by
  unfold checkArgument
  infer_instance

instance (name : Symbol) : Orderly (superMethod name : Compile w.settings (Nat × Symbol)) := by
  unfold superMethod
  infer_instance

mutual

theorem Expression.orderly_compile :
    ∀ e : Expression, Orderly (e.compile : Compile w.settings Unit)
  | .literal _ => by unfold Expression.compile; infer_instance
  | .variable _ => by unfold Expression.compile; infer_instance
  | .assign _ value => by
      have := Expression.orderly_compile value
      unfold Expression.compile
      infer_instance
  | .receiver => by unfold Expression.compile; infer_instance
  | .superGet _ => by unfold Expression.compile; infer_instance
  | .superCall _ arguments => by
      have := Expression.orderly_compileEach arguments
      unfold Expression.compile
      infer_instance
  | .group inner => by
      have := Expression.orderly_compile inner
      unfold Expression.compile
      infer_instance
  | .unary _ operand => by
      have := Expression.orderly_compile operand
      unfold Expression.compile
      infer_instance
  | .binary _ left right | .and left right | .or left right => by
      have := Expression.orderly_compile left
      have := Expression.orderly_compile right
      unfold Expression.compile
      infer_instance
  | .call object arguments | .invoke object _ arguments => by
      have := Expression.orderly_compile object
      have := Expression.orderly_compileEach arguments
      unfold Expression.compile
      infer_instance
  | .get object _ => by
      have := Expression.orderly_compile object
      unfold Expression.compile
      infer_instance
  | .set object _ value => by
      have := Expression.orderly_compile object
      have := Expression.orderly_compile value
      unfold Expression.compile
      infer_instance

theorem Expression.orderly_compileEach : ∀ (es : List Expression) (count : Nat),
    Orderly (Expression.compileEach es count : Compile w.settings Unit)
  | [], _ => by unfold Expression.compileEach; infer_instance
  | [argument], _ => by
      have := Expression.orderly_compile argument
      unfold Expression.compileEach
      infer_instance
  | argument :: next :: arguments, count => by
      have := Expression.orderly_compile argument
      have := Expression.orderly_compileEach (next :: arguments) (count + 1)
      unfold Expression.compileEach
      infer_instance

end

attribute [instance] Expression.orderly_compile Expression.orderly_compileEach

instance (name : Symbol) : Orderly (declareNamed name : Compile w.settings Nat) := by
  unfold declareNamed
  infer_instance

instance (value : Option Expression) :
    Orderly (compileInitial value : Compile w.settings Unit) := by
  unfold compileInitial
  split <;> infer_instance

instance (name : Symbol) (value : Option Expression) :
    Orderly (compileVariable name value : Compile w.settings Unit) := by
  unfold compileVariable
  infer_instance

instance (condition : Option Expression) :
    Orderly (compileCondition condition : Compile w.settings (Option Nat)) := by
  unfold compileCondition
  split <;> infer_instance

instance (start : Nat) (increment : Option Expression) :
    Orderly (compileIncrement start increment : Compile w.settings Nat) := by
  unfold compileIncrement
  split <;> infer_instance

instance (name : Symbol) (count : Nat) :
    Orderly (compileParameters.compileParameter name count : Compile w.settings Unit) := by
  unfold compileParameters.compileParameter
  infer_instance

instance orderly_compileParameters (names : List Symbol) (count : Nat) :
    Orderly (compileParameters names count : Compile w.settings Unit) := by
  fun_induction compileParameters names count with
  | case1 => infer_instance
  | case2 => infer_instance
  | case3 => infer_instance

instance (name : Symbol) (superclass : Option Symbol) :
    Orderly (compileSuperclass name superclass : Compile w.settings Unit) := by
  unfold compileSuperclass
  split <;> infer_instance

instance (name : Symbol) (methods : Compile w.settings Unit) [Orderly methods] :
    Orderly (compileClassBody name methods) := by
  unfold compileClassBody
  infer_instance

instance (first : Initializer) : Orderly (first.compile : Compile w.settings Unit) := by
  unfold Initializer.compile
  split <;> infer_instance

mutual

theorem Statement.orderly_compile :
    ∀ s : Statement, Orderly (s.compile : Compile w.settings Unit)
  | .expression _ | .print _ | .ret none | .ret (some _) => by
      unfold Statement.compile
      infer_instance
  | .ifThen _ body | .whileLoop _ body | .forLoop _ _ _ body => by
      have := Statement.orderly_compile body
      unfold Statement.compile
      infer_instance
  | .ifElse _ body other => by
      have := Statement.orderly_compile body
      have := Statement.orderly_compile other
      unfold Statement.compile
      infer_instance
  | .block inner => by
      have := Declaration.orderly_compileEach inner
      unfold Statement.compile
      infer_instance

theorem Declaration.orderly_compile :
    ∀ d : Declaration, Orderly (d.compile : Compile w.settings Unit)
  | .classDeclaration _ _ methods => by
      have := FunctionTree.orderly_compileMethods methods
      unfold Declaration.compile
      infer_instance
  | .funDeclaration f => by
      have := FunctionTree.orderly_compile .function f
      unfold Declaration.compile
      infer_instance
  | .varDeclaration _ _ => by unfold Declaration.compile; infer_instance
  | .statement s => by
      have := Statement.orderly_compile s
      unfold Declaration.compile
      infer_instance

theorem Declaration.orderly_compileEach : ∀ ds : List Declaration,
    Orderly (Declaration.compileEach ds : Compile w.settings Unit)
  | [] => by unfold Declaration.compileEach; infer_instance
  | d :: ds => by
      have := Declaration.orderly_compile d
      have := Declaration.orderly_compileEach ds
      unfold Declaration.compileEach
      infer_instance

theorem FunctionTree.orderly_compile (kind : FunctionKind) :
    ∀ f : FunctionTree, Orderly (FunctionTree.compile kind f : Compile w.settings Unit)
  | .mk _ _ body => by
      have := Declaration.orderly_compileEach body
      unfold FunctionTree.compile
      infer_instance

theorem FunctionTree.orderly_compileMethods : ∀ fs : List FunctionTree,
    Orderly (FunctionTree.compileMethods fs : Compile w.settings Unit)
  | [] => by unfold FunctionTree.compileMethods; infer_instance
  | f :: fs => by
      have hcompile := fun kind => FunctionTree.orderly_compile kind f
      have := FunctionTree.orderly_compileMethods fs
      unfold FunctionTree.compileMethods
      infer_instance

end

attribute [instance] Statement.orderly_compile Declaration.orderly_compile
  Declaration.orderly_compileEach FunctionTree.orderly_compile FunctionTree.orderly_compileMethods

end LoxCompiler
