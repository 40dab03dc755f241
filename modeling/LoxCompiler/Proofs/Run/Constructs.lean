import LoxCompiler.Proofs.Run.Orderly

/-! # Orderly constructs

Every construct of the language is compiled by an orderly step, given that what stands inside
it is. By induction on the budget, so are whole expressions, declarations and scripts.
-/

set_option synthInstance.maxSize 4096

namespace LoxCompiler.Compile

variable {β : Type} {c : Settings β}

/-! ## Expressions -/

section Expressions

variable (operand : Precedence → Compile c Unit) [hoperand : ∀ level, Orderly (operand level)]

instance (canAssign : Bool) : Orderly (acceptAssign canAssign : Compile c Bool) := by
  unfold acceptAssign
  infer_instance

instance : Orderly (grouping operand) := by unfold grouping; infer_instance

instance : Orderly (unary operand) := by unfold unary; infer_instance

instance : Orderly (binary operand) := by unfold binary; infer_instance

instance : Orderly (conjunction operand) := by unfold conjunction; infer_instance

instance : Orderly (disjunction operand) := by unfold disjunction; infer_instance

omit hoperand in
instance : Orderly (numberLiteral : Compile c Unit) := by
  unfold numberLiteral
  exact .bind fun token => by split <;> infer_instance

omit hoperand in
instance : Orderly (stringLiteral : Compile c Unit) := by
  unfold stringLiteral
  exact .bind fun token => by split <;> infer_instance

omit hoperand in
instance : Orderly (wordLiteral : Compile c Unit) := by
  unfold wordLiteral
  exact .bind fun token => by split <;> infer_instance

instance (canAssign : Bool) : Orderly (named operand canAssign) := by
  unfold named
  exact .bind fun token => by split <;> infer_instance

omit hoperand in
instance : Orderly (receiver : Compile c Unit) := by unfold receiver; infer_instance

instance (budget : Nat) : Orderly (argumentList operand budget) := by
  unfold argumentList
  infer_instance

instance (budget : Nat) : Orderly (call operand budget) := by unfold call; infer_instance

instance (budget : Nat) (canAssign : Bool) : Orderly (property operand budget canAssign) := by
  unfold property
  infer_instance

instance (budget : Nat) : Orderly (superclass operand budget) := by
  unfold superclass
  dsimp only
  infer_instance

instance (budget : Nat) (canAssign : Bool) (leading : Leading) :
    Orderly (lead operand budget canAssign leading) := by
  cases leading <;> unfold lead <;> infer_instance

instance (budget : Nat) (canAssign : Bool) (continuing : Continuing) :
    Orderly (extend operand budget canAssign continuing) := by
  cases continuing <;> unfold extend <;> infer_instance

/-- Take the token that starts an expression, and what belongs to it. -/
def start (budget : Nat) (level : Precedence) : Compile c Unit := do
  advance
  match (Rule.ofKind (← previous).kind).leading with
  | none => report .expectedExpression
  | some leading => lead operand budget (decide (level ≤ .assignment)) leading

/-- Take an operator, and what belongs to it. -/
def operator (budget : Nat) (level : Precedence) : Compile c Unit := do
  advance
  match (Rule.ofKind (← previous).kind).continuing with
  | some continuing => extend operand budget (decide (level ≤ .assignment)) continuing
  | none => return

omit hoperand in
/-- Whether the next token is an operator of a level. -/
def atOperator (level : Precedence) : Compile c Bool := do
  return decide (level ≤ (Rule.ofKind (← current).kind).precedence)

instance (budget : Nat) (level : Precedence) : Orderly (start operand budget level) := by
  unfold start
  exact .bind fun _ => .bind fun token => by split <;> infer_instance

instance (budget : Nat) (level : Precedence) : Orderly (operator operand budget level) := by
  unfold operator
  exact .bind fun _ => .bind fun token => by split <;> infer_instance

omit hoperand in
instance (level : Precedence) : Orderly (atOperator level : Compile c Bool) := by
  unfold atOperator
  infer_instance

/-- What follows the token that starts an expression and belongs to it: operators, and no equals
sign. -/
def operators (budget : Nat) (level : Precedence) : Compile c Unit := do
  repeatWhile (atOperator level) (operator operand budget level) budget
  if ← acceptAssign (decide (level ≤ .assignment)) then report .invalidAssignmentTarget

instance (budget : Nat) (level : Precedence) : Orderly (operators operand budget level) := by
  unfold operators
  infer_instance

/-- What a token starts, and what follows it. -/
def expressionFrom (budget : Nat) (level : Precedence) (token : Token Symbol) : Compile c Unit :=
  match (Rule.ofKind token.kind).leading with
  | none => report .expectedExpression
  | some leading => do
      lead operand budget (decide (level ≤ .assignment)) leading
      operators operand budget level

instance (budget : Nat) (level : Precedence) (token : Token Symbol) :
    Orderly (expressionFrom operand budget level token) := by
  unfold expressionFrom
  split <;> infer_instance

omit hoperand in
/-- An expression in three parts. -/
theorem expressionStep_eq (budget : Nat) (level : Precedence) :
    expressionStep operand budget level = (do
      startExpression
      advance
      expressionFrom operand budget level (← previous)) := rfl

instance (budget : Nat) (level : Precedence) : Orderly (expressionStep operand budget level) := by
  rw [expressionStep_eq]
  infer_instance

end Expressions

instance orderly_expressionAt (budget : Nat) (level : Precedence) :
    Orderly (expressionAt budget level : Compile c Unit) := by
  induction budget generalizing level with
  | zero => exact inferInstanceAs (Orderly (throw .outOfBudget : Compile c Unit))
  | succ budget ih =>
      exact inferInstanceAs (Orderly (expressionStep (expressionAt budget) (budget + 1) level))

instance (budget : Nat) : Orderly (expression budget : Compile c Unit) := by
  unfold expression
  infer_instance

/-! ## Statements and declarations -/

/-- Leave a loop at the jump out of it, if there is one. -/
def leaveLoop : Option Nat → Compile c Unit
  | none => pure ()
  | some exit => do
      patchJump exit
      emit .pop

instance (exit : Option Nat) : Orderly (leaveLoop exit : Compile c Unit) := by
  unfold leaveLoop
  split <;> infer_instance

/-- Make a closure of a finished function with what it captures. -/
def emitClosure (finished : Function β × List Upvalue) : Compile c Unit := do
  emitWith .closure (← addConstant (.function finished.1))
  finished.2.forM fun upvalue => do
    emitCell (if upvalue.isLocal then 1 else 0)
    emitCell upvalue.index

instance (finished : Function β × List Upvalue) :
    Orderly (emitClosure finished : Compile c Unit) := by
  unfold emitClosure
  infer_instance

section Statements

variable (inner : Inner c) [hdeclaration : Orderly inner.declaration]
  [hstatement : Orderly inner.statement]

omit hstatement in
instance : Orderly (block inner) := by unfold block; infer_instance

omit hdeclaration hstatement in
instance : Orderly (varDeclaration inner) := by unfold varDeclaration; infer_instance

omit hdeclaration hstatement in
instance : Orderly (expressionStatement inner) := by unfold expressionStatement; infer_instance

omit hdeclaration hstatement in
instance : Orderly (printStatement inner) := by unfold printStatement; infer_instance

omit hdeclaration in
instance : Orderly (ifStatement inner) := by
  unfold ifStatement
  dsimp only
  infer_instance

omit hdeclaration in
instance : Orderly (whileStatement inner) := by unfold whileStatement; infer_instance

omit hdeclaration hstatement in
instance : Orderly (forInitializer inner) := by unfold forInitializer; infer_instance

omit hdeclaration hstatement in
instance : Orderly (forCondition inner) := by unfold forCondition; infer_instance

omit hdeclaration hstatement in
instance (start : Nat) : Orderly (forIncrement inner start) := by
  unfold forIncrement
  infer_instance

omit hdeclaration hstatement in
/-- A counting loop with its last steps put together. -/
theorem forStatement_eq : (forStatement inner : Compile c Unit) = (do
    beginScope
    consume .openParen "Expect '(' after 'for'."
    forInitializer inner
    let start ← codeSize
    let exit ← forCondition inner
    let next ← forIncrement inner start
    inner.statement
    emitLoop next
    leaveLoop exit
    endScope) := by
  unfold forStatement
  refine bind_congr fun _ => bind_congr fun _ => bind_congr fun _ => bind_congr fun start =>
    bind_congr fun exit => bind_congr fun next => bind_congr fun _ => bind_congr fun _ => ?_
  cases exit <;> simp [leaveLoop]

omit hdeclaration in
instance : Orderly (forStatement inner) := by
  rw [forStatement_eq]
  infer_instance

omit hdeclaration hstatement in
instance : Orderly (returnStatement inner) := by unfold returnStatement; infer_instance

omit hstatement in
instance : Orderly (blockStatement inner) := by unfold blockStatement; infer_instance

instance : Orderly (statementStep inner) := by
  unfold statementStep
  exact .bind fun token => by split <;> infer_instance

omit hdeclaration hstatement in
instance : Orderly (previousName : Compile c Symbol) := by
  unfold previousName
  exact .bind fun token => by split <;> infer_instance

omit hdeclaration hstatement in
instance (count : Nat) : Orderly (parameter count : Compile c Unit) := by
  unfold parameter
  infer_instance

omit hdeclaration hstatement in
instance : Orderly (parameterList inner) := by unfold parameterList; infer_instance

omit hdeclaration hstatement in
/-- A function with its last steps put together. -/
theorem function_eq (kind : FunctionKind) : (function inner kind : Compile c Unit) = (do
    let name ← previousName
    beginFrame kind (some name)
    beginScope
    consume .openParen "Expect '(' after function name."
    parameterList inner
    consume .closeParen "Expect ')' after parameters."
    consume .openBrace "Expect '\x7b' before function body."
    block inner
    emitClosure (← endFrame)) := rfl

omit hstatement in
instance (kind : FunctionKind) : Orderly (function inner kind) := by
  rw [function_eq]
  infer_instance

omit hstatement in
instance : Orderly (funDeclaration inner) := by unfold funDeclaration; infer_instance

omit hstatement in
instance : Orderly (method inner) := by unfold method; infer_instance

omit hdeclaration hstatement in
instance (name : Symbol) : Orderly (superclassClause name : Compile c Unit) := by
  unfold superclassClause
  infer_instance

/-- A class from its opening brace on. -/
def classBody (name : Symbol) : Compile c Unit := do
  loadVariable name
  consume .openBrace "Expect '\x7b' before class body."
  repeatWhile (return !(← check .closeBrace) && !(← check .endOfInput)) (method inner)
    inner.budget
  consume .closeBrace "Expect '\x7d' after class body."
  emit .pop
  let context ← endClass
  if context.hasSuperclass then endScope

omit hdeclaration hstatement in
theorem classDeclaration_eq : classDeclaration inner = (do
    let name ← consumeIdentifier "Expect class name."
    let constant ← addName name
    declareVariable name
    emitWith .makeClass constant
    defineVariable constant
    beginClass
    if ← accept (.operator .less) then
      superclassClause name
      classBody inner name
    else classBody inner name) := rfl

omit hstatement in
instance (name : Symbol) : Orderly (classBody inner name) := by unfold classBody; infer_instance

omit hstatement in
instance : Orderly (classDeclaration inner) := by
  rw [classDeclaration_eq]
  infer_instance

instance : Orderly (declarationStep inner) := by unfold declarationStep; infer_instance

end Statements

theorem orderly_declaration_statement (budget : Nat) :
    Orderly (declaration budget : Compile c Unit) ∧ Orderly (statement budget : Compile c Unit) := by
  induction budget with
  | zero => constructor <;> exact inferInstanceAs (Orderly (throw .outOfBudget : Compile c Unit))
  | succ budget ih =>
      obtain ⟨hdeclaration, hstatement⟩ := ih
      let inner : Inner c := ⟨declaration budget, statement budget, budget + 1⟩
      have : Orderly inner.declaration := hdeclaration
      have : Orderly inner.statement := hstatement
      exact ⟨inferInstanceAs (Orderly (declarationStep inner)),
        inferInstanceAs (Orderly (statementStep inner))⟩

instance (budget : Nat) : Orderly (declaration budget : Compile c Unit) :=
  (orderly_declaration_statement budget).1

instance (budget : Nat) : Orderly (statement budget : Compile c Unit) :=
  (orderly_declaration_statement budget).2

instance (budget : Nat) : Orderly (script budget : Compile c (Function β)) := by
  unfold script
  infer_instance

end LoxCompiler.Compile
