import LoxCompiler.Proofs.Parallel.Steps

/-! # Twin constructs

Every construct of the language is compiled by a step that is its own twin, given that what stands
inside it is. By induction on the budget, so are whole expressions, declarations and scripts.
-/

set_option synthInstance.maxSize 4096

namespace LoxCompiler

variable {p : Pairing}

namespace TokenKind.Alike

variable {k k' : TokenKind Symbol}

theorem rule (h : k.Alike p k') : Rule.ofKind k = Rule.ofKind k' := by
  cases h <;> rfl

theorem unaryCode (h : k.Alike p k') : Compile.unaryCode k = Compile.unaryCode k' := by
  cases h <;> rfl

theorem binaryCode (h : k.Alike p k') : Compile.binaryCode k = Compile.binaryCode k' := by
  cases h <;> rfl

end TokenKind.Alike

namespace Compile

variable {β : Type} {w : Width β}

/-! ## Expressions -/

section Expressions

variable (operand : Precedence → Compile w.settings Unit)
  [hoperand : ∀ level, Twin p Eq (operand level) (operand level)]

instance (canAssign : Bool) :
    Twin p Eq (acceptAssign canAssign : Compile w.settings Bool) (acceptAssign canAssign) := by
  unfold acceptAssign
  infer_instance

instance : Twin p Eq (grouping operand) (grouping operand) := by unfold grouping; infer_instance

instance : Twin p Eq (unary operand) (unary operand) := by
  refine .previous_bind fun htoken => ?_
  dsimp only
  rw [htoken.kind.unaryCode]
  infer_instance

instance : Twin p Eq (binary operand) (binary operand) := by
  refine .previous_bind fun htoken => ?_
  dsimp only
  rw [htoken.kind.binaryCode, htoken.kind.rule]
  infer_instance

instance : Twin p Eq (conjunction operand) (conjunction operand) := by
  unfold conjunction
  infer_instance

instance : Twin p Eq (disjunction operand) (disjunction operand) := by
  unfold disjunction
  infer_instance

omit hoperand in
instance : Twin p Eq (numberLiteral : Compile w.settings Unit) numberLiteral := by
  refine .previous_bind fun {token token'} htoken => ?_
  have hkind := htoken.kind
  generalize token.kind = k, token'.kind = k' at hkind
  cases hkind with
  | identifier _ | string _ => exact .pure rfl
  | same _ =>
      split
      · exact twin_emitConstant (by rw [Constant.Alike])
      · exact .pure rfl

omit hoperand in
instance : Twin p Eq (stringLiteral : Compile w.settings Unit) stringLiteral := by
  refine .previous_bind fun {token token'} htoken => ?_
  have hkind := htoken.kind
  generalize token.kind = k, token'.kind = k' at hkind
  cases hkind with
  | identifier _ => exact .pure rfl
  | string hname => exact twin_emitConstant (by rw [Constant.Alike]; exact hname)
  | same _ =>
      rename_i hkind
      split
      · exact (hkind.ne_string _ rfl).elim
      · exact .pure rfl

omit hoperand in
instance : Twin p Eq (wordLiteral : Compile w.settings Unit) wordLiteral := by
  refine .previous_bind fun {token token'} htoken => ?_
  have hkind := htoken.kind
  generalize token.kind = k, token'.kind = k' at hkind
  cases hkind with
  | identifier _ | string _ => exact .pure rfl
  | same _ => split <;> infer_instance

/-- A variable that was named, or an assignment to it. -/
def assignable (name : Symbol) (canAssign : Bool) : Compile w.settings Unit := do
  let access ← access name
  if ← acceptAssign canAssign then
    operand .assignment
    emitWith access.set access.operand
  else emitWith access.get access.operand

instance (x x' : Symbol) [p.Named x x'] (canAssign : Bool) :
    Twin p Eq (assignable operand x canAssign) (assignable operand x' canAssign) := by
  unfold assignable
  infer_instance

instance (canAssign : Bool) : Twin p Eq (named operand canAssign) (named operand canAssign) := by
  refine .previous_bind fun {token token'} htoken => ?_
  have hkind := htoken.kind
  generalize token.kind = k, token'.kind = k' at hkind
  cases hkind with
  | @identifier x x' hname =>
      have : p.Named x x' := ⟨hname⟩
      exact inferInstanceAs
        (Twin p Eq (assignable operand x canAssign) (assignable operand x' canAssign))
  | string _ => exact .pure rfl
  | same _ =>
      rename_i hkind
      split
      · exact (hkind.ne_identifier _ rfl).elim
      · exact .pure rfl

omit hoperand in
instance : Twin p Eq (receiver : Compile w.settings Unit) receiver := by
  refine .read_bind fun hs => ?_
  have : p.Named _ _ := ⟨hs.this⟩
  rw [hs.classes]
  infer_instance

instance (budget : Nat) :
    Twin p Eq (argumentList operand budget) (argumentList operand budget) := by
  unfold argumentList
  infer_instance

instance (budget : Nat) : Twin p Eq (call operand budget) (call operand budget) := by
  unfold call
  infer_instance

instance (budget : Nat) (canAssign : Bool) :
    Twin p Eq (property operand budget canAssign) (property operand budget canAssign) := by
  unfold property
  infer_instance

/-- A method of a superclass that is there: a call or an access. -/
def superMember (budget : Nat) (method : Symbol) : Compile w.settings Unit := do
  let name ← addName method
  let names := (← read).names
  loadVariable names.this
  if ← accept .openParen then
    let arguments ← argumentList operand budget
    loadVariable names.super
    emitWith .superInvoke name
    emitCell arguments
  else
    loadVariable names.super
    emitWith .getSuper name

instance (budget : Nat) (x x' : Symbol) [p.Named x x'] :
    Twin p Eq (superMember operand budget x) (superMember operand budget x') := by
  refine .bind (R := Eq) inferInstance fun hname => .read_bind fun hs => ?_
  subst hname
  have : p.Named _ _ := ⟨hs.this⟩
  have : p.Named _ _ := ⟨hs.super⟩
  infer_instance

omit hoperand in
theorem superclass_eq (budget : Nat) : superclass operand budget = (do
    let problem := superProblem? (← read).classes
    problem.forM report
    consume .dot "Expect '.' after 'super'."
    let method ← consumeIdentifier "Expect superclass method name."
    if problem.isNone then superMember operand budget method) := rfl

instance (budget : Nat) : Twin p Eq (superclass operand budget) (superclass operand budget) := by
  rw [superclass_eq]
  refine .read_bind fun hs => ?_
  rw [hs.classes]
  infer_instance

instance (budget : Nat) (canAssign : Bool) (leading : Leading) :
    Twin p Eq (lead operand budget canAssign leading) (lead operand budget canAssign leading) := by
  cases leading <;> unfold lead <;> infer_instance

instance (budget : Nat) (canAssign : Bool) (continuing : Continuing) :
    Twin p Eq (extend operand budget canAssign continuing)
      (extend operand budget canAssign continuing) := by
  cases continuing <;> unfold extend <;> infer_instance

instance (budget : Nat) (level : Precedence) :
    Twin p Eq (operator operand budget level) (operator operand budget level) := by
  have hrest : Twin p Eq
      (do
        match (Rule.ofKind (← previous).kind).continuing with
        | some continuing => extend operand budget (decide (level ≤ .assignment)) continuing
        | none => return : Compile w.settings Unit)
      (do
        match (Rule.ofKind (← previous).kind).continuing with
        | some continuing => extend operand budget (decide (level ≤ .assignment)) continuing
        | none => return) := by
    refine .previous_bind fun htoken => ?_
    rw [htoken.kind.rule]
    split <;> infer_instance
  unfold operator
  infer_instance

omit hoperand in
instance (level : Precedence) :
    Twin p Eq (atOperator level : Compile w.settings Bool) (atOperator level) := by
  refine .current_bind fun htoken => ?_
  rw [htoken.kind.rule]
  infer_instance

instance (budget : Nat) (level : Precedence) :
    Twin p Eq (operators operand budget level) (operators operand budget level) := by
  unfold operators
  infer_instance

theorem twin_expressionFrom (budget : Nat) (level : Precedence) {token token' : Token Symbol}
    (h : token.Alike p token') : Twin p Eq (expressionFrom operand budget level token)
      (expressionFrom operand budget level token') := by
  unfold expressionFrom
  rw [h.kind.rule]
  split <;> infer_instance

instance (budget : Nat) (level : Precedence) :
    Twin p Eq (expressionStep operand budget level) (expressionStep operand budget level) := by
  have hstart : Twin p Eq (startExpression : Compile w.settings Unit) startExpression :=
    inferInstance
  have hadvance : Twin p Eq (advance : Compile w.settings Unit) advance := inferInstance
  rw [expressionStep_eq]
  exact hstart.bind fun _ => hadvance.bind fun _ =>
    .previous_bind fun htoken => twin_expressionFrom operand budget level htoken

end Expressions

instance twin_expressionAt (budget : Nat) (level : Precedence) :
    Twin p Eq (expressionAt budget level : Compile w.settings Unit) (expressionAt budget level) := by
  induction budget generalizing level with
  | zero =>
      exact inferInstanceAs (Twin p Eq (throw .outOfBudget : Compile w.settings Unit)
        (throw .outOfBudget))
  | succ budget ih =>
      exact inferInstanceAs (Twin p Eq (expressionStep (expressionAt budget) (budget + 1) level)
        (expressionStep (expressionAt budget) (budget + 1) level))

instance (budget : Nat) :
    Twin p Eq (expression budget : Compile w.settings Unit) (expression budget) := by
  unfold expression
  infer_instance

/-! ## Statements and declarations -/

instance (exit : Option Nat) :
    Twin p Eq (leaveLoop exit : Compile w.settings Unit) (leaveLoop exit) := by
  unfold leaveLoop
  split <;> infer_instance

section Statements

variable (inner : Inner w.settings) [hdeclaration : Twin p Eq inner.declaration inner.declaration]
  [hstatement : Twin p Eq inner.statement inner.statement]

omit hstatement in
instance : Twin p Eq (block inner) (block inner) := by unfold block; infer_instance

omit hdeclaration hstatement in
instance : Twin p Eq (varDeclaration inner) (varDeclaration inner) := by
  unfold varDeclaration
  infer_instance

omit hdeclaration hstatement in
instance : Twin p Eq (expressionStatement inner) (expressionStatement inner) := by
  unfold expressionStatement
  infer_instance

omit hdeclaration hstatement in
instance : Twin p Eq (printStatement inner) (printStatement inner) := by
  unfold printStatement
  infer_instance

omit hdeclaration in
instance : Twin p Eq (ifStatement inner) (ifStatement inner) := by
  unfold ifStatement
  dsimp only
  infer_instance

omit hdeclaration in
instance : Twin p Eq (whileStatement inner) (whileStatement inner) := by
  unfold whileStatement
  infer_instance

omit hdeclaration hstatement in
instance : Twin p Eq (forInitializer inner) (forInitializer inner) := by
  unfold forInitializer
  infer_instance

omit hdeclaration hstatement in
instance : Twin p Eq (forCondition inner) (forCondition inner) := by
  unfold forCondition
  infer_instance

omit hdeclaration hstatement in
instance (start : Nat) : Twin p Eq (forIncrement inner start) (forIncrement inner start) := by
  unfold forIncrement
  infer_instance

omit hdeclaration in
instance : Twin p Eq (forStatement inner) (forStatement inner) := by
  rw [forStatement_eq]
  infer_instance

omit hdeclaration hstatement in
instance : Twin p Eq (returnStatement inner) (returnStatement inner) := by
  refine .frame_bind fun hf => ?_
  dsimp only
  rw [hf.kind]
  infer_instance

omit hstatement in
instance : Twin p Eq (blockStatement inner) (blockStatement inner) := by
  unfold blockStatement
  infer_instance

instance : Twin p Eq (statementStep inner) (statementStep inner) := by
  refine .current_bind fun {token token'} htoken => ?_
  have hkind := htoken.kind
  generalize token.kind = k, token'.kind = k' at hkind
  cases hkind with
  | identifier _ | string _ =>
      exact inferInstanceAs (Twin p Eq (expressionStatement inner) (expressionStatement inner))
  | same _ => split <;> infer_instance

omit hdeclaration hstatement in
instance : Twin p p.name (previousName : Compile w.settings Symbol) previousName := by
  refine .previous_bind fun {token token'} htoken => ?_
  have hkind := htoken.kind
  generalize token.kind = k, token'.kind = k' at hkind
  cases hkind with
  | identifier hname => exact .pure hname
  | string _ => exact .pure p.anonymous
  | same _ =>
      rename_i hkind
      split
      · exact (hkind.ne_identifier _ rfl).elim
      · exact .pure p.anonymous

omit hdeclaration hstatement in
instance (count : Nat) :
    Twin p Eq (parameter count : Compile w.settings Unit) (parameter count) := by
  unfold parameter
  infer_instance

omit hdeclaration hstatement in
instance : Twin p Eq (parameterList inner) (parameterList inner) := by
  have harity (arity : Nat) : Twin p Eq
      (modifyFrame fun frame => { frame with arity } : Compile w.settings Unit)
      (modifyFrame fun frame => { frame with arity }) :=
    twin_modifyFrame fun hf => { hf with arity := rfl }
  unfold parameterList
  infer_instance

/-- Finish a function, and make a closure of it. -/
instance : Twin p Eq (do emitClosure (← endFrame) : Compile w.settings Unit)
    (do emitClosure (← endFrame)) := by
  have hend : Twin p (Finished p) (endFrame : Compile w.settings (Function β × List Upvalue))
      endFrame := inferInstance
  exact hend.bind fun hfinished => twin_emitClosure hfinished

omit hstatement in
instance (kind : FunctionKind) : Twin p Eq (function inner kind) (function inner kind) := by
  rw [function_eq]
  infer_instance

omit hstatement in
instance : Twin p Eq (funDeclaration inner) (funDeclaration inner) := by
  unfold funDeclaration
  infer_instance

omit hstatement in
instance : Twin p Eq (method inner) (method inner) := by
  have hname : Twin p p.name (consumeIdentifier "Expect method name." : Compile w.settings Symbol)
      (consumeIdentifier "Expect method name.") := inferInstance
  refine hname.bind fun hx => ?_
  have : p.Named _ _ := ⟨hx⟩
  refine .bind (R := Eq) inferInstance fun hconstant => .read_bind fun hs => ?_
  subst hconstant
  simp only [p.name_iff hx hs.init]
  infer_instance

/-- Make a class inherit from the class on the stack, which is a local around the methods. -/
def inheritance (className : Symbol) : Compile w.settings Unit := do
  beginScope
  addLocal (← read).names.super
  defineVariable 0
  loadVariable className
  emit .inherit
  markSuperclass

omit hdeclaration hstatement in
instance (x x' : Symbol) [p.Named x x'] :
    Twin p Eq (inheritance x : Compile w.settings Unit) (inheritance x') := by
  refine .bind (R := Eq) inferInstance fun _ => .read_bind fun hs => ?_
  have : p.Named _ _ := ⟨hs.super⟩
  infer_instance

omit hdeclaration hstatement in
theorem superclassClause_eq (className : Symbol) :
    (superclassClause className : Compile w.settings Unit) = (do
      let superclass ← consumeIdentifier "Expect superclass name."
      loadVariable superclass
      if superclass = className then
        report .inheritFromSelf
        inheritance className
      else inheritance className) := rfl

omit hdeclaration hstatement in
instance (x x' : Symbol) [hx : p.Named x x'] :
    Twin p Eq (superclassClause x : Compile w.settings Unit) (superclassClause x') := by
  have hinherit (both : p.Match) : Twin p Eq
      (if both.symbol = x then do report .inheritFromSelf; inheritance x else inheritance x :
        Compile w.settings Unit)
      (if both.other = x' then do report .inheritFromSelf; inheritance x' else inheritance x') :=
    .ite (p.name_iff both.name hx.name)
  rw [superclassClause_eq, superclassClause_eq]
  infer_instance

omit hstatement in
instance (x x' : Symbol) [p.Named x x'] : Twin p Eq (classBody inner x) (classBody inner x') := by
  unfold classBody
  infer_instance

omit hstatement in
instance : Twin p Eq (classDeclaration inner) (classDeclaration inner) := by
  rw [classDeclaration_eq]
  infer_instance

instance : Twin p Eq (declarationStep inner) (declarationStep inner) := by
  unfold declarationStep
  infer_instance

end Statements

theorem twin_declaration_statement (budget : Nat) :
    Twin p Eq (declaration budget : Compile w.settings Unit) (declaration budget) ∧
      Twin p Eq (statement budget : Compile w.settings Unit) (statement budget) := by
  induction budget with
  | zero =>
      constructor <;> exact inferInstanceAs
        (Twin p Eq (throw .outOfBudget : Compile w.settings Unit) (throw .outOfBudget))
  | succ budget ih =>
      obtain ⟨hdeclaration, hstatement⟩ := ih
      let inner : Inner w.settings := ⟨declaration budget, statement budget, budget + 1⟩
      have : Twin p Eq inner.declaration inner.declaration := hdeclaration
      have : Twin p Eq inner.statement inner.statement := hstatement
      exact ⟨inferInstanceAs (Twin p Eq (declarationStep inner) (declarationStep inner)),
        inferInstanceAs (Twin p Eq (statementStep inner) (statementStep inner))⟩

instance (budget : Nat) :
    Twin p Eq (declaration budget : Compile w.settings Unit) (declaration budget) :=
  (twin_declaration_statement budget).1

/-- Whole scripts are compiled to functions that are alike. -/
theorem twin_script (budget : Nat) :
    Twin p (Function.Alike p.name p.line) (script budget : Compile w.settings (Function β))
      (script budget) := by
  have hall : Twin p Eq (repeatWhile (return !(← accept .endOfInput)) (declaration budget) budget :
      Compile w.settings Unit)
      (repeatWhile (return !(← accept .endOfInput)) (declaration budget) budget) := inferInstance
  have hend : Twin p (Finished p) (endFrame : Compile w.settings (Function β × List Upvalue))
      endFrame := inferInstance
  exact hall.bind fun _ => hend.bind fun hfinished => .pure hfinished.1

end Compile

end LoxCompiler
