import LoxCompiler.Proofs.Reports.Paced

/-! # Paced constructs

Every construct is compiled by a step that starts and ends settled, with two exceptions. Expressions
and statements may start in any mode, since they take or miss a token before they report a problem
of the last token taken. Declarations may also end in any mode, since they end with a resumption.
So may whole scripts.
-/

set_option synthInstance.maxSize 4096

namespace LoxCompiler.Compile

variable {β : Type} {c : Settings β} {mode : Bool}

/-! ## Code, scopes and variables -/

instance : Paces mode mode (codeSize : Compile c Nat) := by unfold codeSize; infer_instance

instance : Paces mode mode (constantCount : Compile c Nat) := by
  unfold constantCount
  infer_instance

instance (value : Nat) : Paces mode mode (emitCell value : Compile c Unit) := by
  unfold emitCell
  infer_instance

instance (op : Opcode) : Paces mode mode (emit op : Compile c Unit) := by
  unfold emit
  infer_instance

instance (op : Opcode) (operand : Nat) :
    Paces mode mode (emitWith op operand : Compile c Unit) := by
  unfold emitWith
  infer_instance

instance (value : Constant β) : Paces true true (addConstant value : Compile c Nat) := by
  unfold addConstant
  infer_instance

instance (name : Symbol) : Paces true true (addName name : Compile c Nat) := by
  unfold addName
  infer_instance

instance (value : Constant β) : Paces true true (emitConstant value : Compile c Unit) := by
  unfold emitConstant
  infer_instance

instance (problem : Diagnostic.Problem) (distance : Nat) :
    Paces true true (fitDistance problem distance : Compile c Nat) := by
  unfold fitDistance
  infer_instance

instance (op : Opcode) : Paces mode mode (emitJump op : Compile c Nat) := by
  unfold emitJump
  infer_instance

instance (operand : Nat) : Paces true true (patchJump operand : Compile c Unit) := by
  unfold patchJump
  infer_instance

instance (start : Nat) : Paces true true (emitLoop start : Compile c Unit) := by
  unfold emitLoop
  infer_instance

instance : Paces mode mode (emitReturn : Compile c Unit) := by unfold emitReturn; infer_instance

instance : Paces mode mode (beginScope : Compile c Unit) := by unfold beginScope; infer_instance

instance : Paces mode mode (endScope : Compile c Unit) := by
  unfold endScope
  exact .keeping fun frame => by split <;> infer_instance

instance (answer : Except Diagnostic.Problem (Frame β)) :
    Paces true true (storeFrame answer : Compile c Unit) := by
  unfold storeFrame
  split <;> infer_instance

instance (name : Symbol) : Paces true true (addLocal name : Compile c Unit) := by
  rw [addLocal_eq]
  infer_instance

instance (name : Symbol) : Paces true true (declareVariable name : Compile c Unit) := by
  unfold declareVariable
  infer_instance

instance : Paces mode mode (markInitialized : Compile c Unit) := by
  unfold markInitialized
  infer_instance

theorem paces_declaredName (message : String) :
    Paces false true (declaredName message : Compile c Nat) := by
  unfold declaredName
  exact .settling fun name => inferInstance

instance (message : String) : Paces true true (declaredName message : Compile c Nat) :=
  (paces_declaredName message).settled

instance (global : Nat) : Paces mode mode (defineVariable global : Compile c Unit) := by
  unfold defineVariable
  infer_instance

instance (answer : Option (Nat × Bool)) :
    Paces true true (localSlot answer : Compile c (Option Nat)) := by
  unfold localSlot
  split <;> infer_instance

instance (name : Symbol) : Paces true true (resolveLocal name : Compile c (Option Nat)) := by
  rw [resolveLocal_eq]
  infer_instance

instance (name : Symbol) : Paces mode mode
    (captureVariable name : Compile c (Except Diagnostic.Problem (Option Nat))) := by
  unfold captureVariable
  infer_instance

instance (answer : Except Diagnostic.Problem (Option Nat)) :
    Paces true true (upvalueIndex answer : Compile c (Option Nat)) := by
  unfold upvalueIndex
  split <;> infer_instance

instance (name : Symbol) : Paces true true (resolveUpvalue name : Compile c (Option Nat)) := by
  rw [resolveUpvalue_eq]
  infer_instance

instance (name : Symbol) (index : Option Nat) :
    Paces true true (accessOuter name index : Compile c Access) := by
  unfold accessOuter
  split <;> infer_instance

instance (name : Symbol) (slot : Option Nat) :
    Paces true true (accessLocal name slot : Compile c Access) := by
  unfold accessLocal
  split <;> infer_instance

instance (name : Symbol) : Paces true true (access name : Compile c Access) := by
  rw [access_eq]
  infer_instance

instance (name : Symbol) : Paces true true (loadVariable name : Compile c Unit) := by
  unfold loadVariable
  infer_instance

instance : Paces mode mode (takeFrame : Compile c (Function β × List Upvalue)) := by
  unfold takeFrame
  have hpop : Paces mode mode (change fun s => do
      let (frame, outer) ← s.frames.pop
      return (frame, { s with frames := outer }) : Compile c (Frame β)) := by
    apply paces_change
    intro s a t h
    cases hf : s.frames.pop <;> rw [hf] at h <;> cases h
    rfl
  infer_instance

instance : Paces mode mode (endFrame : Compile c (Function β × List Upvalue)) := by
  rw [endFrame_eq]
  infer_instance

/-! ## Expressions -/

section Expressions

variable (operand : Precedence → Compile c Unit) [hoperand : ∀ level, Paces true true (operand level)]

instance (canAssign : Bool) : Paces mode mode (acceptAssign canAssign : Compile c Bool) := by
  unfold acceptAssign
  infer_instance

instance : Paces true true (grouping operand) := by unfold grouping; infer_instance

instance : Paces true true (unary operand) := by unfold unary; infer_instance

instance : Paces true true (binary operand) := by unfold binary; infer_instance

instance : Paces true true (conjunction operand) := by unfold conjunction; infer_instance

instance : Paces true true (disjunction operand) := by unfold disjunction; infer_instance

omit hoperand in
instance : Paces true true (numberLiteral : Compile c Unit) := by
  unfold numberLiteral
  exact .keeping fun token => by split <;> infer_instance

omit hoperand in
instance : Paces true true (stringLiteral : Compile c Unit) := by
  unfold stringLiteral
  exact .keeping fun token => by split <;> infer_instance

omit hoperand in
instance : Paces true true (wordLiteral : Compile c Unit) := by
  unfold wordLiteral
  exact .keeping fun token => by split <;> infer_instance

instance (canAssign : Bool) : Paces true true (named operand canAssign) := by
  unfold named
  exact .keeping fun token => by split <;> infer_instance

omit hoperand in
instance : Paces true true (receiver : Compile c Unit) := by unfold receiver; infer_instance

instance (budget : Nat) : Paces true true (argumentList operand budget) := by
  unfold argumentList
  infer_instance

instance (budget : Nat) : Paces true true (call operand budget) := by unfold call; infer_instance

instance (budget : Nat) (canAssign : Bool) : Paces true true (property operand budget canAssign) := by
  unfold property
  infer_instance

instance (budget : Nat) : Paces true true (superclass operand budget) := by
  unfold superclass
  dsimp only
  infer_instance

instance (budget : Nat) (canAssign : Bool) (leading : Leading) :
    Paces true true (lead operand budget canAssign leading) := by
  cases leading <;> unfold lead <;> infer_instance

instance (budget : Nat) (canAssign : Bool) (continuing : Continuing) :
    Paces true true (extend operand budget canAssign continuing) := by
  cases continuing <;> unfold extend <;> infer_instance

instance (budget : Nat) (level : Precedence) : Paces true true (operator operand budget level) := by
  unfold operator
  exact .settling fun _ => .keeping fun token => by split <;> infer_instance

omit hoperand in
instance (level : Precedence) : Paces mode mode (atOperator level : Compile c Bool) := by
  unfold atOperator
  infer_instance

instance (budget : Nat) (level : Precedence) : Paces true true (operators operand budget level) := by
  unfold operators
  infer_instance

instance (budget : Nat) (level : Precedence) (token : Token Symbol) :
    Paces true true (expressionFrom operand budget level token) := by
  unfold expressionFrom
  split <;> infer_instance

/-- An expression takes a token first. -/
theorem paces_expressionStep (budget : Nat) (level : Precedence) :
    Paces false true (expressionStep operand budget level) := by
  rw [expressionStep_eq]
  exact .keeping fun _ => .settling fun _ => inferInstance

end Expressions

theorem paces_expressionAt (budget : Nat) (level : Precedence) :
    Paces false true (expressionAt budget level : Compile c Unit) := by
  induction budget generalizing level with
  | zero => exact inferInstanceAs (Paces false true (throw .outOfBudget : Compile c Unit))
  | succ budget ih =>
      have := fun level => (ih level).settled
      exact paces_expressionStep (expressionAt budget) (budget + 1) level

instance {before : Bool} (budget : Nat) :
    Paces before true (expression budget : Compile c Unit) := by
  have h := paces_expressionAt (c := c) budget .assignment
  cases before with
  | false => exact h
  | true => exact h.settled

/-! ## Statements and declarations -/

instance (exit : Option Nat) : Paces true true (leaveLoop exit : Compile c Unit) := by
  unfold leaveLoop
  split <;> infer_instance

instance (finished : Function β × List Upvalue) :
    Paces true true (emitClosure finished : Compile c Unit) := by
  unfold emitClosure
  infer_instance

section Statements

variable (inner : Inner c) [hdeclaration : Paces false false inner.declaration]
  [hstatement : Paces false true inner.statement]

omit hstatement in
/-- A block ends settled, since it takes its closing brace or misses it. -/
theorem paces_block : Paces false true (block inner) := by
  unfold block
  exact .keeping fun _ => inferInstance

omit hstatement in
instance : Paces true true (block inner) := (paces_block inner).settled

omit hdeclaration hstatement in
theorem paces_varDeclaration : Paces false true (varDeclaration inner) := by
  unfold varDeclaration
  have := paces_declaredName (c := c) "Expect variable name."
  exact .settling fun _ => inferInstance

omit hdeclaration hstatement in
theorem paces_expressionStatement : Paces false true (expressionStatement inner) := by
  unfold expressionStatement
  exact .settling fun _ => inferInstance

omit hdeclaration hstatement in
instance : Paces true true (printStatement inner) := by unfold printStatement; infer_instance

omit hdeclaration in
instance : Paces true true (ifStatement inner) := by
  have := hstatement.settled
  unfold ifStatement
  dsimp only
  infer_instance

omit hdeclaration in
instance : Paces true true (whileStatement inner) := by
  have := hstatement.settled
  unfold whileStatement
  infer_instance

omit hdeclaration hstatement in
instance : Paces true true (forInitializer inner) := by
  have := (paces_varDeclaration inner).settled
  have := (paces_expressionStatement inner).settled
  unfold forInitializer
  infer_instance

omit hdeclaration hstatement in
instance : Paces true true (forCondition inner) := by unfold forCondition; infer_instance

omit hdeclaration hstatement in
instance (start : Nat) : Paces true true (forIncrement inner start) := by
  unfold forIncrement
  infer_instance

omit hdeclaration in
instance : Paces true true (forStatement inner) := by
  have := hstatement.settled
  rw [forStatement_eq]
  infer_instance

omit hdeclaration hstatement in
instance : Paces true true (returnStatement inner) := by unfold returnStatement; infer_instance

omit hstatement in
instance : Paces true true (blockStatement inner) := by unfold blockStatement; infer_instance

/-- A statement takes the word that starts it, or an expression. -/
theorem paces_statementStep : Paces false true (statementStep inner) := by
  unfold statementStep
  refine .keeping fun token => ?_
  split
  case _ => exact .settling fun _ => inferInstance
  case _ => exact .settling fun _ => inferInstance
  case _ => exact .settling fun _ => inferInstance
  case _ => exact .settling fun _ => inferInstance
  case _ => exact .settling fun _ => inferInstance
  case _ => exact .settling fun _ => inferInstance
  case _ => exact paces_expressionStatement inner

omit hdeclaration hstatement in
instance : Paces mode mode (previousName : Compile c Symbol) := by
  unfold previousName
  exact .keeping fun token => by split <;> infer_instance

omit hdeclaration hstatement in
instance (count : Nat) : Paces true true (parameter count : Compile c Unit) := by
  unfold parameter
  infer_instance

omit hdeclaration hstatement in
instance : Paces true true (parameterList inner) := by unfold parameterList; infer_instance

omit hstatement in
instance (kind : FunctionKind) : Paces true true (function inner kind) := by
  rw [function_eq]
  infer_instance

omit hstatement in
theorem paces_funDeclaration : Paces false true (funDeclaration inner) := by
  unfold funDeclaration
  have := paces_declaredName (c := c) "Expect function name."
  exact .settling fun _ => inferInstance

omit hstatement in
instance : Paces true true (method inner) := by unfold method; infer_instance

omit hdeclaration hstatement in
instance (name : Symbol) : Paces true true (superclassClause name : Compile c Unit) := by
  unfold superclassClause
  infer_instance

omit hstatement in
instance (name : Symbol) : Paces true true (classBody inner name) := by
  unfold classBody
  infer_instance

omit hstatement in
theorem paces_classDeclaration : Paces false true (classDeclaration inner) := by
  rw [classDeclaration_eq]
  exact .settling fun _ => inferInstance

/-- A declaration ends with a resumption, if it reports something. -/
theorem paces_declarationStep : Paces false false (declarationStep inner) := by
  have := (paces_classDeclaration inner).relaxed
  have := (paces_funDeclaration inner).relaxed
  have := (paces_varDeclaration inner).relaxed
  have := (paces_statementStep inner).relaxed
  unfold declarationStep
  infer_instance

end Statements

theorem paces_declaration_statement (budget : Nat) :
    Paces false false (declaration budget : Compile c Unit) ∧
      Paces false true (statement budget : Compile c Unit) := by
  induction budget with
  | zero =>
      exact ⟨inferInstanceAs (Paces false false (throw .outOfBudget : Compile c Unit)),
        inferInstanceAs (Paces false true (throw .outOfBudget : Compile c Unit))⟩
  | succ budget ih =>
      obtain ⟨hdeclaration, hstatement⟩ := ih
      let inner : Inner c := ⟨declaration budget, statement budget, budget + 1⟩
      have : Paces false false inner.declaration := hdeclaration
      have : Paces false true inner.statement := hstatement
      exact ⟨paces_declarationStep inner, paces_statementStep inner⟩

instance paces_script (budget : Nat) :
    Paces false false (script budget : Compile c (Function β)) := by
  have := (paces_declaration_statement (c := c) budget).1
  unfold script
  infer_instance

end LoxCompiler.Compile
