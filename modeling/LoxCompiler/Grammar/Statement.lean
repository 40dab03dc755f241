import LoxCompiler.Grammar.Expression
import LoxCompiler.Session.Nesting

/-! # Statements and declarations

Every construct is compiled by a function of its own, after the word that starts it was
taken. It is given a way to compile the declarations and statements inside it.
-/

namespace LoxCompiler

/-- How to compile what stands inside a statement or declaration: the declarations and
statements in it, and how deep its expressions and how long its lists may be. -/
structure Inner {β : Type} (c : Settings β) where
  declaration : Compile c Unit
  statement : Compile c Unit
  budget : Nat

namespace Compile

variable {β : Type} {c : Settings β} (inner : Inner c)

/-- The declarations of a block and its closing brace. -/
def block : Compile c Unit := do
  repeatWhile (return !(← check .closeBrace) && !(← check .endOfInput)) inner.declaration
    inner.budget
  consume .closeBrace "Expect '\x7d' after block."

/-- A variable declaration. -/
def varDeclaration : Compile c Unit := do
  let global ← declaredName "Expect variable name."
  if ← accept (.operator .assign) then expression inner.budget
  else emit .pushNil
  consume .semicolon "Expect ';' after variable declaration."
  defineVariable global

/-- An expression whose value is dropped. -/
def expressionStatement : Compile c Unit := do
  expression inner.budget
  consume .semicolon "Expect ';' after expression."
  emit .pop

/-- An expression whose value is printed. -/
def printStatement : Compile c Unit := do
  expression inner.budget
  consume .semicolon "Expect ';' after value."
  emit .print

/-- A choice between two statements. The condition is dropped on either way. -/
def ifStatement : Compile c Unit := do
  consume .openParen "Expect '(' after 'if'."
  expression inner.budget
  consume .closeParen "Expect ')' after condition."
  let otherwise ← emitJump .jumpIfFalse
  emit .pop
  inner.statement
  let done ← emitJump .jump
  patchJump otherwise
  emit .pop
  if ← accept (.keyword .elseWord) then inner.statement
  patchJump done

/-- A loop with its condition before the body. -/
def whileStatement : Compile c Unit := do
  let start ← codeSize
  consume .openParen "Expect '(' after 'while'."
  expression inner.budget
  consume .closeParen "Expect ')' after condition."
  let exit ← emitJump .jumpIfFalse
  emit .pop
  inner.statement
  emitLoop start
  patchJump exit
  emit .pop

/-- The first clause of a counting loop. -/
def forInitializer : Compile c Unit := do
  if ← accept .semicolon then return
  else if ← accept (.keyword .varWord) then varDeclaration inner
  else expressionStatement inner

/-- The condition of a counting loop, and the jump out of the loop if there is one. -/
def forCondition : Compile c (Option Nat) := do
  if ← accept .semicolon then return none
  expression inner.budget
  consume .semicolon "Expect ';' after loop condition."
  let exit ← emitJump .jumpIfFalse
  emit .pop
  return some exit

/-- The increment of a counting loop. It stands before the body and runs after it, so control
jumps over it first, and comes back to it from the body. The answer is where the body goes
on. -/
def forIncrement (start : Nat) : Compile c Nat := do
  if ← accept .closeParen then return start
  let body ← emitJump .jump
  let increment ← codeSize
  expression inner.budget
  emit .pop
  consume .closeParen "Expect ')' after for clauses."
  emitLoop start
  patchJump body
  return increment

/-- A counting loop, which is a scope of its own. -/
def forStatement : Compile c Unit := do
  beginScope
  consume .openParen "Expect '(' after 'for'."
  forInitializer inner
  let start ← codeSize
  let exit ← forCondition inner
  let next ← forIncrement inner start
  inner.statement
  emitLoop next
  match exit with
  | none => pure ()
  | some exit =>
      patchJump exit
      emit .pop
  endScope

/-- A return, with or without a value. -/
def returnStatement : Compile c Unit := do
  let kind := (← frame).kind
  if kind = .script then report .returnFromScript
  if ← accept .semicolon then emitReturn
  else
    if kind = .initializer then report .returnValueFromInitializer
    expression inner.budget
    consume .semicolon "Expect ';' after return value."
    emit .ret

/-- A block, which is a scope of its own. -/
def blockStatement : Compile c Unit := do
  beginScope
  block inner
  endScope

/-- A statement. -/
def statementStep : Compile c Unit := do
  match (← current).kind with
  | .keyword .printWord => advance; printStatement inner
  | .keyword .forWord => advance; forStatement inner
  | .keyword .ifWord => advance; ifStatement inner
  | .keyword .returnWord => advance; returnStatement inner
  | .keyword .whileWord => advance; whileStatement inner
  | .openBrace => advance; blockStatement inner
  | _ => expressionStatement inner

end Compile

end LoxCompiler
