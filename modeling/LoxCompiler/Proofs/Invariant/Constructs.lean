import LoxCompiler.Proofs.Invariant.Steps

/-! # Constructs under an audit

Every construct keeps the invariant, given that what stands inside it does. Expressions do so in
all states in which as many classes as methods are open, statements and declarations in the settled
ones of these. Between a class and its methods, there is one class more, and no expression.
-/

set_option synthInstance.maxSize 4096

namespace LoxCompiler.Compile

variable {β : Type} {w : Width β} {audit : Audit β} [htolerant : audit.Tolerant w.limits] {σ : Stage}
  {κ : Nesting}

/-! ## Expressions -/

section Expressions

variable (operand : Precedence → Compile w.settings Unit)
  (operand' : Precedence → Compile (w.audited audit) Unit)
  [hoperand : ∀ level, Obedient σ (operand level) (operand' level)]

instance (canAssign : Bool) : Obedient σ (acceptAssign canAssign : Compile w.settings Bool)
    (acceptAssign canAssign : Compile (w.audited audit) Bool) := by
  unfold acceptAssign
  infer_instance

instance : Obedient σ (grouping operand) (grouping operand') := by unfold grouping; infer_instance

instance : Obedient σ (unary operand) (unary operand') := by unfold unary; infer_instance

instance : Obedient σ (binary operand) (binary operand') := by unfold binary; infer_instance

instance : Obedient σ (conjunction operand) (conjunction operand') := by
  unfold conjunction
  infer_instance

instance : Obedient σ (disjunction operand) (disjunction operand') := by
  unfold disjunction
  infer_instance

omit hoperand in
instance : Obedient σ (numberLiteral : Compile w.settings Unit)
    (numberLiteral : Compile (w.audited audit) Unit) := by
  unfold numberLiteral
  refine .bind fun token => ?_
  rcases token.kind with _ | _ | _ | (_ | _ | _ | _) | _ | _ | _ | _ | _ | _ | _ | _ <;> infer_instance

omit hoperand in
instance : Obedient σ (stringLiteral : Compile w.settings Unit)
    (stringLiteral : Compile (w.audited audit) Unit) := by
  unfold stringLiteral
  refine .bind fun token => ?_
  rcases token.kind with _ | _ | _ | (_ | _ | _ | _) | _ | _ | _ | _ | _ | _ | _ | _ <;> infer_instance

omit hoperand in
instance : Obedient σ (wordLiteral : Compile w.settings Unit)
    (wordLiteral : Compile (w.audited audit) Unit) := by
  unfold wordLiteral
  refine .bind fun token => ?_
  rcases token.kind with _ | _ | _ | (_ | (_ | _) | _ | _) | _ | _ | _ | _ | _ | _ | _ | _ <;>
    infer_instance

instance (canAssign : Bool) : Obedient σ (named operand canAssign) (named operand' canAssign) := by
  unfold named
  exact .bind fun token => by cases token.kind <;> infer_instance

omit hoperand in
instance : Obedient σ (receiver : Compile w.settings Unit)
    (receiver : Compile (w.audited audit) Unit) := by
  unfold receiver
  infer_instance

instance (budget : Nat) : Obedient σ (argumentList operand budget) (argumentList operand' budget) := by
  unfold argumentList
  infer_instance

instance (budget : Nat) : Obedient σ (call operand budget) (call operand' budget) := by
  unfold call
  infer_instance

instance (budget : Nat) (canAssign : Bool) :
    Obedient σ (property operand budget canAssign) (property operand' budget canAssign) := by
  unfold property
  infer_instance

instance (budget : Nat) : Obedient σ (superclass operand budget) (superclass operand' budget) := by
  unfold superclass
  dsimp only
  infer_instance

instance (budget : Nat) (canAssign : Bool) (leading : Leading) :
    Obedient σ (lead operand budget canAssign leading) (lead operand' budget canAssign leading) := by
  cases leading <;> unfold lead <;> infer_instance

instance (budget : Nat) (canAssign : Bool) (continuing : Continuing) :
    Obedient σ (extend operand budget canAssign continuing)
      (extend operand' budget canAssign continuing) := by
  cases continuing <;> unfold extend <;> infer_instance

instance (budget : Nat) (level : Precedence) :
    Obedient σ (operator operand budget level) (operator operand' budget level) := by
  unfold operator
  refine .bind fun _ => .bind fun token => ?_
  cases (Rule.ofKind token.kind).continuing <;> infer_instance

omit hoperand htolerant in
instance (level : Precedence) : Obedient σ (atOperator level : Compile w.settings Bool)
    (atOperator level : Compile (w.audited audit) Bool) := by
  unfold atOperator
  infer_instance

instance (budget : Nat) (level : Precedence) :
    Obedient σ (operators operand budget level) (operators operand' budget level) := by
  unfold operators
  infer_instance

instance (budget : Nat) (level : Precedence) (token : Token Symbol) :
    Obedient σ (expressionFrom operand budget level token)
      (expressionFrom operand' budget level token) := by
  unfold expressionFrom
  cases (Rule.ofKind token.kind).leading <;> infer_instance

instance [σ.nesting.Balanced] (budget : Nat) (level : Precedence) :
    Obedient σ (expressionStep operand budget level) (expressionStep operand' budget level) := by
  rw [expressionStep_eq, expressionStep_eq]
  infer_instance

end Expressions

instance obedient_expressionAt [σ.nesting.Balanced] (budget : Nat) (level : Precedence) :
    Obedient σ (expressionAt budget level : Compile w.settings Unit)
      (expressionAt budget level : Compile (w.audited audit) Unit) := by
  induction budget generalizing level with
  | zero => exact obedient_throw .outOfBudget
  | succ budget ih =>
      exact inferInstanceAs (Obedient σ
        (expressionStep (expressionAt budget) (budget + 1) level : Compile w.settings Unit)
        (expressionStep (expressionAt budget) (budget + 1) level : Compile (w.audited audit) Unit))

instance [σ.nesting.Balanced] (budget : Nat) : Obedient σ (expression budget : Compile w.settings Unit)
    (expression budget : Compile (w.audited audit) Unit) := by
  unfold expression
  infer_instance

/-! ## Statements -/

omit htolerant in
/-- A step that keeps the invariant in all settled states in which as many classes as methods are
open. -/
class Compliant (m : Compile w.settings Unit) (m' : Compile (w.audited audit) Unit) : Prop where
  obedient : ∀ κ : Nesting, κ.Balanced → Obedient ⟨true, κ⟩ m m'

omit htolerant in
instance [hκ : κ.Balanced] (m : Compile w.settings Unit) (m' : Compile (w.audited audit) Unit)
    [hm : Compliant m m'] : Obedient ⟨true, κ⟩ m m' := hm.obedient κ hκ

instance (exit : Option Nat) : Obedient σ (leaveLoop exit : Compile w.settings Unit)
    (leaveLoop exit : Compile (w.audited audit) Unit) := by
  cases exit <;> unfold leaveLoop <;> infer_instance

section Statements

variable (declaration statement : Compile w.settings Unit)
  (declaration' statement' : Compile (w.audited audit) Unit) (budget : Nat)
  [hdeclaration : Compliant declaration declaration'] [hstatement : Compliant statement statement']
  [hκ : κ.Balanced]

omit hstatement in
instance : Obedient ⟨true, κ⟩ (block ⟨declaration, statement, budget⟩)
    (block ⟨declaration', statement', budget⟩) := by
  unfold block
  infer_instance

omit hdeclaration hstatement in
instance : Obedient ⟨true, κ⟩ (varDeclaration ⟨declaration, statement, budget⟩)
    (varDeclaration ⟨declaration', statement', budget⟩) where
  obeys := by
    unfold varDeclaration
    refine (obeys_declaredName _).bind fun global => .next fun _ => .cond (fun _ => ?_) fun _ => ?_
    · exact .next fun _ => .next fun _ => obeys_defineVariable global
    · exact .next fun _ => .next fun _ => obeys_defineVariable global

omit hdeclaration hstatement in
instance : Obedient ⟨true, κ⟩ (expressionStatement ⟨declaration, statement, budget⟩)
    (expressionStatement ⟨declaration', statement', budget⟩) := by
  unfold expressionStatement
  infer_instance

omit hdeclaration hstatement in
instance : Obedient ⟨true, κ⟩ (printStatement ⟨declaration, statement, budget⟩)
    (printStatement ⟨declaration', statement', budget⟩) := by
  unfold printStatement
  infer_instance

omit hdeclaration in
instance : Obedient ⟨true, κ⟩ (ifStatement ⟨declaration, statement, budget⟩)
    (ifStatement ⟨declaration', statement', budget⟩) := by
  unfold ifStatement
  dsimp only
  infer_instance

omit hdeclaration in
instance : Obedient ⟨true, κ⟩ (whileStatement ⟨declaration, statement, budget⟩)
    (whileStatement ⟨declaration', statement', budget⟩) := by
  unfold whileStatement
  infer_instance

omit hdeclaration hstatement in
instance : Obedient ⟨true, κ⟩ (forInitializer ⟨declaration, statement, budget⟩)
    (forInitializer ⟨declaration', statement', budget⟩) := by
  unfold forInitializer
  infer_instance

omit hdeclaration hstatement in
instance : Obedient ⟨true, κ⟩ (forCondition ⟨declaration, statement, budget⟩)
    (forCondition ⟨declaration', statement', budget⟩) := by
  unfold forCondition
  infer_instance

omit hdeclaration hstatement in
instance (start : Nat) : Obedient ⟨true, κ⟩ (forIncrement ⟨declaration, statement, budget⟩ start)
    (forIncrement ⟨declaration', statement', budget⟩ start) := by
  unfold forIncrement
  infer_instance

instance : Obedient ⟨true, κ⟩ (beginScope : Compile w.settings Unit)
    (beginScope : Compile (w.audited audit) Unit) :=
  ⟨obeys_beginScope.mono (fun _ h => h) fun _ _ h => h.1⟩

omit hdeclaration in
instance : Obedient ⟨true, κ⟩ (forStatement ⟨declaration, statement, budget⟩)
    (forStatement ⟨declaration', statement', budget⟩) := by
  rw [forStatement_eq, forStatement_eq]
  infer_instance

omit hdeclaration hstatement in
instance : Obedient ⟨true, κ⟩ (returnStatement ⟨declaration, statement, budget⟩)
    (returnStatement ⟨declaration', statement', budget⟩) := by
  unfold returnStatement
  infer_instance

omit hstatement in
instance : Obedient ⟨true, κ⟩ (blockStatement ⟨declaration, statement, budget⟩)
    (blockStatement ⟨declaration', statement', budget⟩) := by
  unfold blockStatement
  infer_instance

instance : Obedient ⟨true, κ⟩ (statementStep ⟨declaration, statement, budget⟩)
    (statementStep ⟨declaration', statement', budget⟩) := by
  unfold statementStep
  refine .bind fun token => ?_
  rcases token.kind with _ | (_ | _ | _ | _ | _ | _ | _ | _ | _ | _ | _) | _ | _ | _ | _ | _ | _ | _ | _ |
    _ | _ <;> infer_instance

/-! ## Declarations -/

omit hdeclaration hstatement hκ in
instance : Obedient σ (previousName : Compile w.settings Symbol)
    (previousName : Compile (w.audited audit) Symbol) := by
  unfold previousName
  exact .bind fun token => by cases token.kind <;> infer_instance

omit hdeclaration hstatement hκ in
instance (count : Nat) : Obedient ⟨true, κ⟩ (parameter count : Compile w.settings Unit)
    (parameter count : Compile (w.audited audit) Unit) := by
  have hdefine (message : String) : Obedient ⟨true, κ⟩
      (do defineVariable (← declaredName message) : Compile w.settings Unit)
      (do defineVariable (← declaredName message) : Compile (w.audited audit) Unit) :=
    ⟨(obeys_declaredName message).bind fun global => obeys_defineVariable global⟩
  unfold parameter
  infer_instance

omit hdeclaration hstatement hκ in
instance : Obedient ⟨true, κ⟩ (parameterList ⟨declaration, statement, budget⟩)
    (parameterList ⟨declaration', statement', budget⟩) := by
  unfold parameterList
  infer_instance

omit hstatement hκ in
theorem obedient_function (kind : FunctionKind) (hkind : kind ≠ .script)
    [hinside : (κ.openFunction kind).Balanced] : Obedient ⟨true, κ⟩
      (function ⟨declaration, statement, budget⟩ kind)
      (function ⟨declaration', statement', budget⟩ kind) where
  obeys := by
    rw [function_eq, function_eq]
    refine .next fun name => (obeys_beginFrame hkind _).bind fun _ => .next fun _ => .next fun _ =>
      .next fun _ => .next fun _ => .next fun _ => .next fun _ => ?_
    rw [endFrame_eq, endFrame_eq, bind_assoc, bind_assoc]
    exact .next fun _ => (obeys_takeFrame kind).bind fun finished => obeys_emitClosure finished

omit hstatement in
instance : Obedient ⟨true, κ⟩ (funDeclaration ⟨declaration, statement, budget⟩)
    (funDeclaration ⟨declaration', statement', budget⟩) where
  obeys := by
    have := obedient_function (κ := κ) declaration statement declaration' statement' budget
      .function nofun
    unfold funDeclaration
    exact (obeys_declaredName _).bind fun global => obeys_markInitialized.bind fun _ => .next fun _ =>
      obeys_defineVariable global

omit hstatement in
/-- A method of a class, in the body of it. -/
instance : Obedient ⟨true, κ.openClass⟩ (method ⟨declaration, statement, budget⟩)
    (method ⟨declaration', statement', budget⟩) := by
  have hfunction (p : Prop) [Decidable p] : Obedient ⟨true, κ.openClass⟩
      (function ⟨declaration, statement, budget⟩ (if p then .initializer else .method))
      (function ⟨declaration', statement', budget⟩ (if p then .initializer else .method)) := by
    have := hκ.method (if p then .initializer else .method) (by split <;> rfl)
    exact obedient_function declaration statement declaration' statement' budget _
      (by split <;> nofun)
  unfold method
  infer_instance

omit hdeclaration hstatement hκ in
instance (name : Symbol) : Obedient ⟨true, κ⟩ (superclassClause name : Compile w.settings Unit)
    (superclassClause name : Compile (w.audited audit) Unit) where
  obeys := by
    unfold superclassClause
    have hrest : Obeys (·.Sound w.limits ⟨true, κ⟩)
        (do
          beginScope
          addLocal (← read).names.super
          defineVariable 0
          loadVariable name
          emit .inherit
          markSuperclass : Compile w.settings Unit)
        (do
          beginScope
          addLocal (← read).names.super
          defineVariable 0
          loadVariable name
          emit .inherit
          markSuperclass : Compile (w.audited audit) Unit) fun _ => (·.Sound w.limits ⟨true, κ⟩) := by
      refine obeys_beginScope.bind fun _ => (obeys_read _).bind fun s => (obeys_addLocal _).bind
        fun _ => (obeys_defineVariable 0).bind fun _ => .next fun _ => .next fun _ => Obedient.obeys
    exact .next fun _ => .next fun _ => .cond (fun _ => .next fun _ => hrest) fun _ => hrest

omit hstatement in
/-- The body of a class ends the class. -/
theorem obeys_classBody (name : Symbol) : Obeys (·.Sound w.limits ⟨true, κ.openClass⟩)
    (classBody ⟨declaration, statement, budget⟩ name)
    (classBody ⟨declaration', statement', budget⟩ name) fun _ => (·.Sound w.limits ⟨true, κ⟩) := by
  unfold classBody
  exact .next fun _ => .next fun _ => .next fun _ => .next fun _ => .next fun _ =>
    obeys_endClass.bind fun _ => Obedient.obeys

omit hstatement in
instance : Obedient ⟨true, κ⟩ (classDeclaration ⟨declaration, statement, budget⟩)
    (classDeclaration ⟨declaration', statement', budget⟩) where
  obeys := by
    have hbody (name : Symbol) :=
      obeys_classBody (κ := κ) declaration statement declaration' statement' budget name
    rw [classDeclaration_eq, classDeclaration_eq]
    exact .next fun name => .next fun constant => (obeys_declareVariable name).bind fun _ =>
      .next fun _ => (obeys_defineVariable constant).bind fun _ => obeys_beginClass.bind fun _ =>
      .next fun _ => .cond (fun _ => .next fun _ => hbody name) fun _ => hbody name

instance : Obedient ⟨true, κ⟩ (declarationStep ⟨declaration, statement, budget⟩)
    (declarationStep ⟨declaration', statement', budget⟩) := by
  unfold declarationStep
  infer_instance

end Statements

theorem compliant_declaration_statement (budget : Nat) :
    Compliant (declaration budget : Compile w.settings Unit)
        (declaration budget : Compile (w.audited audit) Unit) ∧
      Compliant (statement budget : Compile w.settings Unit)
        (statement budget : Compile (w.audited audit) Unit) := by
  induction budget with
  | zero => exact ⟨⟨fun _ _ => obedient_throw .outOfBudget⟩, ⟨fun _ _ => obedient_throw .outOfBudget⟩⟩
  | succ budget ih =>
      obtain ⟨hdeclaration, hstatement⟩ := ih
      refine ⟨⟨fun κ hκ => ?_⟩, ⟨fun κ hκ => ?_⟩⟩
      · exact inferInstanceAs (Obedient ⟨true, κ⟩
          (declarationStep ⟨declaration budget, statement budget, budget + 1⟩ :
            Compile w.settings Unit)
          (declarationStep ⟨declaration budget, statement budget, budget + 1⟩ :
            Compile (w.audited audit) Unit))
      · exact inferInstanceAs (Obedient ⟨true, κ⟩
          (statementStep ⟨declaration budget, statement budget, budget + 1⟩ :
            Compile w.settings Unit)
          (statementStep ⟨declaration budget, statement budget, budget + 1⟩ :
            Compile (w.audited audit) Unit))

/-- A script is compiled under the audit as it is without one, from every settled state in which it
is the only function and no class is open. -/
theorem obeys_script (budget : Nat) :
    Obeys (·.Sound w.limits ⟨true, ⟨0, [.script]⟩⟩)
      (script budget : Compile w.settings (Function β))
      (script budget : Compile (w.audited audit) (Function β)) fun _ => (·.Ended w.limits ⟨0, []⟩) := by
  have hscript : Nesting.Balanced ⟨0, [.script]⟩ := ⟨rfl⟩
  have hdeclaration : Compliant (declaration budget : Compile w.settings Unit)
      (declaration budget : Compile (w.audited audit) Unit) :=
    (compliant_declaration_statement budget).1
  unfold script
  rw [endFrame_eq, endFrame_eq, bind_assoc, bind_assoc]
  exact .next fun _ => .next fun _ => (obeys_takeFrame (κ := ⟨0, []⟩) .script).bind fun _ =>
    .pure fun _ h => h

end LoxCompiler.Compile
