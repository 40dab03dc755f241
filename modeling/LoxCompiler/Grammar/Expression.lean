import LoxCompiler.Expression.Rule
import LoxCompiler.Session.Variable

/-! # Expressions

Every construct is compiled by a function of its own, which is given a way to compile the
expressions inside it at some precedence. A construct that starts an expression runs after
its first token was taken. Whether an expression may be assigned to is decided by the
precedence at which it stands, and only variables and properties look for an equals sign.
-/

namespace LoxCompiler.Compile

variable {β : Type} {c : Settings β}

/-- Take an equals sign where one may stand, and say whether it was there. -/
def acceptAssign (canAssign : Bool) : Compile c Bool := do
  if canAssign then accept (.operator .assign) else return false

/-- An expression in parentheses. -/
def grouping (operand : Precedence → Compile c Unit) : Compile c Unit := do
  operand .assignment
  consume .closeParen "Expect ')' after expression."

/-- The instructions of a unary operator. -/
def unaryCode : TokenKind Symbol → List Opcode
  | .operator .minus => [.negate]
  | .operator .not => [.not]
  | _ => []

/-- A unary operator and its operand. -/
def unary (operand : Precedence → Compile c Unit) : Compile c Unit := do
  let kind := (← previous).kind
  operand .unary
  (unaryCode kind).forM emit

/-- The instructions of a binary operator. The machine has three comparisons; the others are
their negations. -/
def binaryCode : TokenKind Symbol → List Opcode
  | .operator .plus => [.add]
  | .operator .minus => [.subtract]
  | .operator .times => [.multiply]
  | .operator .divide => [.divide]
  | .operator .equal => [.equal]
  | .operator .notEqual => [.equal, .not]
  | .operator .greater => [.greater]
  | .operator .greaterEqual => [.less, .not]
  | .operator .less => [.less]
  | .operator .lessEqual => [.greater, .not]
  | _ => []

/-- A binary operator and its right operand, after the left one. -/
def binary (operand : Precedence → Compile c Unit) : Compile c Unit := do
  let kind := (← previous).kind
  operand (Rule.ofKind kind).precedence.next
  (binaryCode kind).forM emit

/-- The right operand of a conjunction, which runs only if the left one is truthy. -/
def conjunction (operand : Precedence → Compile c Unit) : Compile c Unit := do
  let skip ← emitJump .jumpIfFalse
  emit .pop
  operand .and
  patchJump skip

/-- The right operand of a disjunction, which runs only if the left one is falsey. -/
def disjunction (operand : Precedence → Compile c Unit) : Compile c Unit := do
  let next ← emitJump .jumpIfFalse
  let skip ← emitJump .jump
  patchJump next
  emit .pop
  operand .or
  patchJump skip

/-- A number literal. -/
def numberLiteral : Compile c Unit := do
  match (← previous).kind with
  | .literal (.number value) => emitConstant (.number value)
  | _ => return

/-- A string literal. -/
def stringLiteral : Compile c Unit := do
  match (← previous).kind with
  | .literal (.string value) => emitConstant (.string value)
  | _ => return

/-- One of the literals that have instructions of their own. -/
def wordLiteral : Compile c Unit := do
  match (← previous).kind with
  | .literal .nil => emit .pushNil
  | .literal (.boolean true) => emit .pushTrue
  | .literal (.boolean false) => emit .pushFalse
  | _ => return

/-- A variable, or an assignment to it. -/
def named (operand : Precedence → Compile c Unit) (canAssign : Bool) : Compile c Unit := do
  match (← previous).kind with
  | .identifier name =>
      let access ← access name
      if ← acceptAssign canAssign then
        operand .assignment
        emitWith access.set access.operand
      else emitWith access.get access.operand
  | _ => return

/-- The receiver of the innermost method. -/
def receiver : Compile c Unit := do
  let s ← read
  if s.classes.isEmpty then report .thisOutsideClass
  else loadVariable s.names.this

/-- The arguments of a call after its opening parenthesis, and how many there are. -/
def argumentList (operand : Precedence → Compile c Unit) (budget : Nat) : Compile c Nat := do
  let argument := fun (count : Nat) => do
    operand .assignment
    measure (.arguments (count + 1))
    if c.limits.arguments = some count then report .tooManyArguments
  let count ← if ← check .closeParen then pure 0 else separated argument budget 0
  consume .closeParen "Expect ')' after arguments."
  return Limits.clamp c.limits.arguments count

/-- A call of the value before it. -/
def call (operand : Precedence → Compile c Unit) (budget : Nat) : Compile c Unit := do
  let arguments ← argumentList operand budget
  emitWith .call arguments

/-- A property of the object before it: an assignment, a method call, or an access. -/
def property (operand : Precedence → Compile c Unit) (budget : Nat) (canAssign : Bool) :
    Compile c Unit := do
  let name ← addName (← consumeIdentifier "Expect property name after '.'.")
  if ← acceptAssign canAssign then
    operand .assignment
    emitWith .setProperty name
  else if ← accept .openParen then
    let arguments ← argumentList operand budget
    emitWith .invoke name
    emitCell arguments
  else emitWith .getProperty name

/-- Why there is no superclass to refer to, if there is none. -/
def superProblem? : List ClassContext → Option Diagnostic.Problem
  | [] => some .superOutsideClass
  | context :: _ => if context.hasSuperclass then none else some .superWithoutSuperclass

/-- A method of the superclass: a call or an access. Where there is no superclass it is read
and leaves no code. -/
def superclass (operand : Precedence → Compile c Unit) (budget : Nat) : Compile c Unit := do
  let problem := superProblem? (← read).classes
  problem.forM report
  consume .dot "Expect '.' after 'super'."
  let name ← consumeIdentifier "Expect superclass method name."
  if problem.isNone then
    let name ← addName name
    let names := (← read).names
    loadVariable names.this
    if ← accept .openParen then
      let arguments ← argumentList operand budget
      loadVariable names.super
      emitWith .superInvoke name
      emitCell arguments
    else
      loadVariable names.super
      emitWith .getSuper name

/-- Compile what a token starts. -/
def lead (operand : Precedence → Compile c Unit) (budget : Nat) (canAssign : Bool) :
    Leading → Compile c Unit
  | .grouping => grouping operand
  | .unary => unary operand
  | .number => numberLiteral
  | .string => stringLiteral
  | .literal => wordLiteral
  | .name => named operand canAssign
  | .receiver => receiver
  | .superclass => superclass operand budget

/-- Compile what a token continues. -/
def extend (operand : Precedence → Compile c Unit) (budget : Nat) (canAssign : Bool) :
    Continuing → Compile c Unit
  | .binary => binary operand
  | .and => conjunction operand
  | .or => disjunction operand
  | .call => call operand budget
  | .property => property operand budget canAssign

/-- Compile an expression whose operators bind at least as strongly as the given precedence.
What is left of it before an equals sign can only be assigned to at the weakest level. -/
def expressionStep (operand : Precedence → Compile c Unit) (budget : Nat) (level : Precedence) :
    Compile c Unit := do
  startExpression
  advance
  match (Rule.ofKind (← previous).kind).leading with
  | none => report .expectedExpression
  | some leading =>
      let canAssign := decide (level ≤ .assignment)
      lead operand budget canAssign leading
      repeatWhile (return decide (level ≤ (Rule.ofKind (← current).kind).precedence))
        (do
          advance
          match (Rule.ofKind (← previous).kind).continuing with
          | some continuing => extend operand budget canAssign continuing
          | none => return)
        budget
      if ← acceptAssign canAssign then report .invalidAssignmentTarget

/-- Compile an expression at a precedence, with at most some number of expressions inside each
other. -/
def expressionAt : Nat → Precedence → Compile c Unit
  | 0, _ => throw .outOfBudget
  | budget + 1, level => fun s => expressionStep (expressionAt budget) (budget + 1) level s

/-- Compile a whole expression. -/
def expression (budget : Nat) : Compile c Unit := expressionAt budget .assignment

end LoxCompiler.Compile
