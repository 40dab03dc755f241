import LoxCompiler.Proofs.Limits.Capture

/-! # Constructs that agree

Every construct agrees up to the limits, given that what stands inside it does. A list of parameters
or of arguments is counted, and each of its items notes the count up to it, so the whole count fits
if all numbers do.
-/

set_option synthInstance.maxSize 16384

namespace LoxCompiler.Compile

variable {α β : Type} {cell : Nat → β}

/-! ## Variables, functions and classes -/

instance (name : Symbol) (index : Option Nat) :
    Agreeing (accessOuter name index : Limited cell Access)
      fun _ => accessOuter name index := by
  cases index <;> unfold accessOuter <;> infer_instance

instance (name : Symbol) (slot : Option Nat) :
    Agreeing (accessLocal name slot : Limited cell Access)
      fun _ => accessLocal name slot := by
  cases slot <;> unfold accessLocal <;> infer_instance

instance (name : Symbol) :
    Agreeing (access name : Limited cell Access) fun _ => access name := by
  simp only [access_eq]
  infer_instance

instance (name : Symbol) :
    Agreeing (loadVariable name : Limited cell Unit) fun _ => loadVariable name := by
  unfold loadVariable
  infer_instance

instance (kind : FunctionKind) (name : Option Symbol) :
    Agreeing (beginFrame kind name : Limited cell Unit) fun _ => beginFrame kind name :=
  agreeing_modify fun s => by
    rw [Session.mapCells, List.map_cons, Frame.mapCells_new]

instance : Agreeing (beginClass : Limited cell Unit) fun _ => beginClass :=
  agreeing_modify fun _ => rfl

instance : Agreeing (markSuperclass : Limited cell Unit) fun _ => markSuperclass :=
  agreeing_modify fun _ => rfl

instance : Agreeing (endClass : Limited cell ClassContext) fun _ => endClass :=
  agreeing_change fun s a t h => by
    obtain ⟨names, reader, frames, classes, events⟩ := s
    cases classes <;> cases h
    rfl

/-- The finished function has other cells. -/
theorem agrees_takeFrame : Agrees (fun b a => b = (a.1.mapCells cell, a.2))
    (takeFrame : Limited cell (Function β × List Upvalue)) fun _ => takeFrame :=
  agrees_of_run_eq (fun _ _ => rfl) fun {s a t b u} hclean hrun => by
    obtain ⟨names, reader, frames, classes, events⟩ := s
    have h := hclean.run
    cases frames with
    | nil => cases h
    | cons f outer =>
        cases h
        cases hrun
        refine ⟨by rw [Frame.mapCells_finish], ?_⟩
        simp only [Session.mapCells, Array.size_map]

theorem agreeing_emitClosure (cell : Nat → β) (f : Function Nat) (upvalues : List Upvalue) :
    Agreeing (emitClosure (f.mapCells cell, upvalues) : Limited cell Unit)
      fun _ => emitClosure (f, upvalues) := by
  have hconstant := agreeing_addConstant cell (.function f)
  rw [Constant.mapCells_function] at hconstant
  unfold emitClosure
  infer_instance

/-! ## Counted lists -/

instance (kind : TokenKind Symbol) :
    Measuring fun passes => (accept kind : Compile (Width.unbounded.within passes) Bool) :=
  measuring_of_run_eq fun _ _ => rfl

instance (item' : ∀ passes, Nat → Compile (Width.unbounded.within passes) Unit)
    [∀ n, Measuring fun passes => item' passes n] (budget count : Nat) :
    Measuring fun passes => separated (item' passes) budget count := by
  induction budget generalizing count with
  | zero => exact measuring_of_run_eq fun _ _ => rfl
  | succ budget ih =>
      unfold separated
      infer_instance

/-- What is counted comes to no more than fits, if that holds of the count up to each item. -/
theorem agrees_separated {item : Nat → Limited cell Unit}
    {item' : ∀ passes, Nat → Compile (Width.unbounded.within passes) Unit} [∀ n, Orderly (item n)]
    [∀ n, Orderly (item' (fun _ => true) n)] [∀ n, Measuring fun passes => item' passes n]
    (hitem : ∀ n ≤ 255, Agrees (fun _ _ => n + 1 ≤ 255) (item n) fun passes => item' passes n)
    (budget count : Nat) (hcount : count ≤ 255) :
    Agrees (fun b a => b = a ∧ a ≤ 255) (separated item budget count)
      fun passes => separated (item' passes) budget count := by
  induction budget generalizing count with
  | zero => exact agrees_throw .outOfBudget
  | succ budget ih =>
      unfold separated
      refine (hitem count hcount).bind inferInstance fun _ _ hroom => ?_
      refine Agrees.bind (R := Eq) Agreeing.agrees inferInstance fun more _ heq => ?_
      subst heq
      cases more with
      | true => exact ih (count + 1) hroom
      | false => exact agrees_pure ⟨rfl, hroom⟩

theorem agrees_parameter (cell : Nat → β) (count : Nat) : Agrees (fun _ _ => count + 1 ≤ 255)
    (parameter count : Limited cell Unit) fun _ => parameter count := by
  have hrest : Agreeing
      (do defineVariable (← declaredName "Expect parameter name.") : Limited cell Unit)
      fun _ => (do defineVariable (← declaredName "Expect parameter name.")) := inferInstance
  unfold parameter
  dsimp only
  refine agrees_measure hrest.agrees.measuring (fun hfits => ?_) fun hnot => ?_
  · have hroom : count + 1 ≤ 255 := of_decide_eq_true hfits
    have hadmits : Limits.admits (Width.bounded cell).limits.parameters (count + 1) = true := hfits
    rw [hadmits]
    exact hrest.agrees.mono fun _ _ _ => hroom
  · have hadmits : Limits.admits (Width.bounded cell).limits.parameters (count + 1) = false := hnot
    rw [hadmits]
    exact reports_reportCurrent _ _

instance (count : Nat) :
    Measuring fun passes => (parameter count : Compile (Width.unbounded.within passes) Unit) :=
  (agrees_parameter id count).measuring

/-- An argument, with some arguments before it. -/
def argument {β : Type} {c : Settings β} (operand : Precedence → Compile c Unit) (count : Nat) :
    Compile c Unit := do
  operand .assignment
  measure (.arguments (count + 1))
  if c.limits.arguments = some count then report .tooManyArguments

instance {β : Type} {c : Settings β} (operand : Precedence → Compile c Unit)
    [∀ level, Orderly (operand level)] (count : Nat) : Orderly (argument operand count) := by
  unfold argument
  infer_instance

instance (count : Nat) : Measuring fun passes =>
    (if (Width.unbounded.within passes).limits.arguments = some count then report .tooManyArguments
      else pure () : Compile (Width.unbounded.within passes) Unit) :=
  measuring_of_run_eq fun _ _ => rfl

theorem argumentList_eq {β : Type} {c : Settings β} (operand : Precedence → Compile c Unit)
    (budget : Nat) : argumentList operand budget = (do
      let count ← if ← check .closeParen then pure 0 else separated (argument operand) budget 0
      consume .closeParen "Expect ')' after arguments."
      return Limits.clamp c.limits.arguments count) := rfl

/-- What follows the items of a list in parentheses, if there are any. -/
theorem agreeing_counted {item : Nat → Limited cell Unit}
    {item' : ∀ passes, Nat → Compile (Width.unbounded.within passes) Unit}
    {k : Nat → Limited cell α}
    {k' : ∀ passes, Nat → Compile (Width.unbounded.within passes) α} {budget : Nat}
    [∀ n, Orderly (item n)] [∀ n, Orderly (item' (fun _ => true) n)]
    [∀ n, Measuring fun passes => item' passes n] [∀ n, Orderly (k n)]
    [∀ n, Orderly (k' (fun _ => true) n)] (hmeasuring : ∀ n, Measuring fun passes => k' passes n)
    (hitem : ∀ n ≤ 255, Agrees (fun _ _ => n + 1 ≤ 255) (item n) fun passes => item' passes n)
    (hk : ∀ n ≤ 255, Agreeing (k n) fun passes => k' passes n) :
    Agreeing
      (do if ← check .closeParen then pure 0 >>= k else separated item budget 0 >>= k)
      fun passes => (do
        if ← check .closeParen then pure 0 >>= k' passes
        else separated (item' passes) budget 0 >>= k' passes) := by
  refine .bind fun closed => ?_
  cases closed with
  | true => exact hk 0 (Nat.zero_le _)
  | false =>
      refine ⟨Agrees.bind (agrees_separated hitem budget 0 (Nat.zero_le _)) hmeasuring ?_⟩
      rintro _ count ⟨rfl, hroom⟩
      exact (hk _ hroom).agrees

/-! ## Expressions -/

section Expressions

variable (operand : Precedence → Limited cell Unit)
  (operand' : ∀ passes, Precedence → Compile (Width.unbounded.within passes) Unit)
  [hoperand : ∀ level, Agreeing (operand level) fun passes => operand' passes level]
  [horderly : ∀ level, Orderly (operand level)]
  [∀ level, Orderly (operand' (fun _ => true) level)]

instance (canAssign : Bool) : Agreeing (acceptAssign canAssign : Limited cell Bool)
    fun _ => acceptAssign canAssign := by
  unfold acceptAssign
  infer_instance

instance : Agreeing (grouping operand) fun passes => grouping (operand' passes) := by
  unfold grouping
  infer_instance

instance : Agreeing (unary operand) fun passes => unary (operand' passes) := by
  unfold unary
  infer_instance

instance : Agreeing (binary operand) fun passes => binary (operand' passes) := by
  unfold binary
  infer_instance

instance : Agreeing (conjunction operand) fun passes => conjunction (operand' passes) := by
  unfold conjunction
  infer_instance

instance : Agreeing (disjunction operand) fun passes => disjunction (operand' passes) := by
  unfold disjunction
  infer_instance

omit horderly in
/-- With a count of arguments that fits so far, the next one fits or is reported. -/
theorem agrees_argument (count : Nat) (hcount : count ≤ 255) : Agrees (fun _ _ => count + 1 ≤ 255)
    (argument operand count) fun passes => argument (operand' passes) count := by
  unfold argument
  refine (hoperand .assignment).agrees.bind (fun _ => inferInstance) fun _ _ _ =>
    agrees_measure inferInstance (fun hfits => ?_) fun hnot => ?_
  · have hroom : count + 1 ≤ 255 := of_decide_eq_true hfits
    have hlast : ¬ (Width.bounded cell).limits.arguments = some count := fun h => by
      cases h
      omega
    rw [if_neg hlast]
    exact agrees_pure hroom
  · have hlast : (Width.bounded cell).limits.arguments = some count := by
      have : ¬ count + 1 ≤ 255 := of_decide_eq_false hnot
      exact congrArg some (by omega)
    rw [if_pos hlast, ← bind_pure (report _)]
    exact reports_report _ _

instance (budget : Nat) : Agreeing (argumentList operand budget)
    fun passes => argumentList (operand' passes) budget := by
  have (n : Nat) : Measuring fun passes => argument (operand' passes) n := by
    have := (hoperand .assignment).agrees.measuring
    unfold argument
    infer_instance
  simp only [argumentList_eq]
  refine agreeing_counted (fun _ => measuring_of_run_eq fun _ _ => rfl)
    (agrees_argument operand operand') fun n hroom => ?_
  have hclamp : Limits.clamp (Width.bounded cell).limits.arguments n = n := Nat.min_eq_left hroom
  rw [hclamp]
  exact inferInstanceAs (Agreeing
    (consume .closeParen "Expect ')' after arguments." >>= fun _ => pure n)
    fun _ => consume .closeParen "Expect ')' after arguments." >>= fun _ => pure n)

instance : Agreeing (numberLiteral : Limited cell Unit) fun _ => numberLiteral := by
  unfold numberLiteral
  refine .previous_bind fun token => ?_
  rcases token.kind with _ | _ | _ | (_ | _ | _ | _) | _ | _ | _ | _ | _ | _ | _ | _ <;>
    infer_instance

instance : Agreeing (stringLiteral : Limited cell Unit) fun _ => stringLiteral := by
  unfold stringLiteral
  refine .previous_bind fun token => ?_
  rcases token.kind with _ | _ | _ | (_ | _ | _ | _) | _ | _ | _ | _ | _ | _ | _ | _ <;>
    infer_instance

instance : Agreeing (wordLiteral : Limited cell Unit) fun _ => wordLiteral := by
  unfold wordLiteral
  refine .previous_bind fun token => ?_
  rcases token.kind with _ | _ | _ | (_ | (_ | _) | _ | _) | _ | _ | _ | _ | _ | _ | _ | _ <;>
    infer_instance

instance (canAssign : Bool) : Agreeing (named operand canAssign)
    fun passes => named (operand' passes) canAssign := by
  unfold named
  exact .previous_bind fun token => by cases token.kind <;> infer_instance

instance : Agreeing (receiver : Limited cell Unit) fun _ => receiver := by
  unfold receiver
  infer_instance

instance (budget : Nat) : Agreeing (call operand budget)
    fun passes => call (operand' passes) budget := by
  unfold call
  infer_instance

instance (budget : Nat) (canAssign : Bool) : Agreeing (property operand budget canAssign)
    fun passes => property (operand' passes) budget canAssign := by
  unfold property
  infer_instance

instance (budget : Nat) : Agreeing (superclass operand budget)
    fun passes => superclass (operand' passes) budget := by
  unfold superclass
  dsimp only
  infer_instance

instance (budget : Nat) (canAssign : Bool) (leading : Leading) :
    Agreeing (lead operand budget canAssign leading)
      fun passes => lead (operand' passes) budget canAssign leading := by
  cases leading <;> unfold lead <;> infer_instance

instance (budget : Nat) (canAssign : Bool) (continuing : Continuing) :
    Agreeing (extend operand budget canAssign continuing)
      fun passes => extend (operand' passes) budget canAssign continuing := by
  cases continuing <;> unfold extend <;> infer_instance

/-- What an operator continues. -/
def operatorFrom {β : Type} {c : Settings β} (operand : Precedence → Compile c Unit) (budget : Nat)
    (level : Precedence) (token : Token Symbol) : Compile c Unit :=
  match (Rule.ofKind token.kind).continuing with
  | some continuing => extend operand budget (decide (level ≤ .assignment)) continuing
  | none => return

theorem operator_eq {β : Type} {c : Settings β} (operand : Precedence → Compile c Unit)
    (budget : Nat) (level : Precedence) : operator operand budget level = (do
      advance
      operatorFrom operand budget level (← previous)) := rfl

instance {β : Type} {c : Settings β} (operand : Precedence → Compile c Unit)
    [∀ level, Orderly (operand level)] (budget : Nat) (level : Precedence) (token : Token Symbol) :
    Orderly (operatorFrom operand budget level token) := by
  unfold operatorFrom
  split <;> infer_instance

instance (budget : Nat) (level : Precedence) (token : Token Symbol) :
    Agreeing (operatorFrom operand budget level token)
      fun passes => operatorFrom (operand' passes) budget level token := by
  unfold operatorFrom
  cases (Rule.ofKind token.kind).continuing <;> infer_instance

instance (budget : Nat) (level : Precedence) : Agreeing (operator operand budget level)
    fun passes => operator (operand' passes) budget level := by
  simp only [operator_eq]
  infer_instance

instance (level : Precedence) :
    Agreeing (atOperator level : Limited cell Bool) fun _ => atOperator level := by
  unfold atOperator
  infer_instance

instance (budget : Nat) (level : Precedence) : Agreeing (operators operand budget level)
    fun passes => operators (operand' passes) budget level := by
  unfold operators
  infer_instance

instance (budget : Nat) (level : Precedence) (token : Token Symbol) :
    Agreeing (expressionFrom operand budget level token)
      fun passes => expressionFrom (operand' passes) budget level token := by
  unfold expressionFrom
  cases (Rule.ofKind token.kind).leading <;> infer_instance

instance (budget : Nat) (level : Precedence) : Agreeing (expressionStep operand budget level)
    fun passes => expressionStep (operand' passes) budget level := by
  simp only [expressionStep_eq]
  infer_instance

end Expressions

instance agreeing_expressionAt (budget : Nat) (level : Precedence) :
    Agreeing (expressionAt budget level : Limited cell Unit)
      fun _ => expressionAt budget level := by
  induction budget generalizing level with
  | zero => exact agreeing_throw .outOfBudget
  | succ budget ih =>
      exact inferInstanceAs (Agreeing
        (expressionStep (expressionAt budget) (budget + 1) level : Limited cell Unit)
        fun _ => expressionStep (expressionAt budget) (budget + 1) level)

instance (budget : Nat) : Agreeing (expression budget : Limited cell Unit)
    fun _ => expression budget := by
  unfold expression
  infer_instance

/-! ## Statements -/

instance (exit : Option Nat) : Agreeing (leaveLoop exit : Limited cell Unit)
    fun _ => leaveLoop exit := by
  cases exit <;> unfold leaveLoop <;> infer_instance

section Statements

variable (declaration statement : Limited cell Unit)
  (declaration' statement' : Watched Unit) (budget : Nat)
  [hdeclaration : Agreeing declaration declaration'] [hstatement : Agreeing statement statement']
  [hd : Orderly declaration] [hs : Orderly statement] [hd' : Orderly (declaration' fun _ => true)]
  [hs' : Orderly (statement' fun _ => true)]

omit hstatement hs hs' in
instance : Agreeing (block ⟨declaration, statement, budget⟩)
    fun passes => block ⟨declaration' passes, statement' passes, budget⟩ := by
  unfold block
  infer_instance

omit hdeclaration hstatement hd hs hd' hs' in
instance : Agreeing (varDeclaration ⟨declaration, statement, budget⟩)
    fun passes => varDeclaration ⟨declaration' passes, statement' passes, budget⟩ := by
  unfold varDeclaration
  infer_instance

omit hdeclaration hstatement hd hs hd' hs' in
instance : Agreeing (expressionStatement ⟨declaration, statement, budget⟩)
    fun passes => expressionStatement ⟨declaration' passes, statement' passes, budget⟩ := by
  unfold expressionStatement
  infer_instance

omit hdeclaration hstatement hd hs hd' hs' in
instance : Agreeing (printStatement ⟨declaration, statement, budget⟩)
    fun passes => printStatement ⟨declaration' passes, statement' passes, budget⟩ := by
  unfold printStatement
  infer_instance

omit hdeclaration hd hd' in
instance : Agreeing (ifStatement ⟨declaration, statement, budget⟩)
    fun passes => ifStatement ⟨declaration' passes, statement' passes, budget⟩ := by
  unfold ifStatement
  dsimp only
  infer_instance

omit hdeclaration hd hd' in
instance : Agreeing (whileStatement ⟨declaration, statement, budget⟩)
    fun passes => whileStatement ⟨declaration' passes, statement' passes, budget⟩ := by
  unfold whileStatement
  infer_instance

omit hdeclaration hstatement hd hs hd' hs' in
instance : Agreeing (forInitializer ⟨declaration, statement, budget⟩)
    fun passes => forInitializer ⟨declaration' passes, statement' passes, budget⟩ := by
  unfold forInitializer
  infer_instance

omit hdeclaration hstatement hd hs hd' hs' in
instance : Agreeing (forCondition ⟨declaration, statement, budget⟩)
    fun passes => forCondition ⟨declaration' passes, statement' passes, budget⟩ := by
  unfold forCondition
  infer_instance

omit hdeclaration hstatement hd hs hd' hs' in
instance (start : Nat) : Agreeing (forIncrement ⟨declaration, statement, budget⟩ start)
    fun passes => forIncrement ⟨declaration' passes, statement' passes, budget⟩ start := by
  unfold forIncrement
  infer_instance

omit hdeclaration hd hd' in
instance : Agreeing (forStatement ⟨declaration, statement, budget⟩)
    fun passes => forStatement ⟨declaration' passes, statement' passes, budget⟩ := by
  simp only [forStatement_eq]
  infer_instance

omit hdeclaration hstatement hd hs hd' hs' in
instance : Agreeing (returnStatement ⟨declaration, statement, budget⟩)
    fun passes => returnStatement ⟨declaration' passes, statement' passes, budget⟩ := by
  unfold returnStatement
  infer_instance

omit hstatement hs hs' in
instance : Agreeing (blockStatement ⟨declaration, statement, budget⟩)
    fun passes => blockStatement ⟨declaration' passes, statement' passes, budget⟩ := by
  unfold blockStatement
  infer_instance

instance : Agreeing (statementStep ⟨declaration, statement, budget⟩)
    fun passes => statementStep ⟨declaration' passes, statement' passes, budget⟩ := by
  unfold statementStep
  refine .current_bind fun token => ?_
  rcases token.kind with _ | (_ | _ | _ | _ | _ | _ | _ | _ | _ | _ | _) | _ | _ | _ | _ | _ | _ |
    _ | _ | _ | _ <;> infer_instance

/-! ## Declarations -/

omit hdeclaration hstatement hd hs hd' hs' in
instance : Agreeing (previousName : Limited cell Symbol) fun _ => previousName := by
  unfold previousName
  exact .previous_bind fun token => by cases token.kind <;> infer_instance

omit hdeclaration hstatement hd hs hd' hs' in
instance : Agreeing (parameterList ⟨declaration, statement, budget⟩) fun passes =>
    parameterList ⟨declaration' passes, statement' passes, budget⟩ := by
  refine agreeing_counted (fun _ => measuring_of_run_eq fun _ _ => rfl)
    (fun n _ => agrees_parameter cell n) fun n hroom => ?_
  have hclamp : Limits.clamp (Width.bounded cell).limits.parameters n = n := Nat.min_eq_left hroom
  dsimp only
  rw [hclamp]
  exact agreeing_modifyFrame fun _ => rfl

omit hstatement hs hs' in
instance (kind : FunctionKind) : Agreeing (function ⟨declaration, statement, budget⟩ kind)
    fun passes => function ⟨declaration' passes, statement' passes, budget⟩ kind := by
  have hclosure : Agreeing (do emitClosure (← takeFrame) : Limited cell Unit)
      fun _ => (do emitClosure (← takeFrame)) := by
    refine ⟨agrees_takeFrame.bind
      (fun f => (agreeing_emitClosure cell f.1 f.2).agrees.measuring) ?_⟩
    rintro _ f rfl
    exact (agreeing_emitClosure cell f.1 f.2).agrees
  simp only [function_eq, endFrame_eq, bind_assoc]
  infer_instance

omit hstatement hs hs' in
instance : Agreeing (funDeclaration ⟨declaration, statement, budget⟩)
    fun passes => funDeclaration ⟨declaration' passes, statement' passes, budget⟩ := by
  unfold funDeclaration
  infer_instance

omit hstatement hs hs' in
instance : Agreeing (method ⟨declaration, statement, budget⟩)
    fun passes => method ⟨declaration' passes, statement' passes, budget⟩ := by
  unfold method
  infer_instance

omit hdeclaration hstatement hd hs hd' hs' in
instance (name : Symbol) : Agreeing (superclassClause name : Limited cell Unit)
    fun _ => superclassClause name := by
  unfold superclassClause
  infer_instance

omit hstatement hs hs' in
instance (name : Symbol) : Agreeing (classBody ⟨declaration, statement, budget⟩ name)
    fun passes => classBody ⟨declaration' passes, statement' passes, budget⟩ name := by
  unfold classBody
  infer_instance

omit hstatement hs hs' in
instance : Agreeing (classDeclaration ⟨declaration, statement, budget⟩)
    fun passes => classDeclaration ⟨declaration' passes, statement' passes, budget⟩ := by
  simp only [classDeclaration_eq]
  infer_instance

instance : Agreeing (declarationStep ⟨declaration, statement, budget⟩)
    fun passes => declarationStep ⟨declaration' passes, statement' passes, budget⟩ := by
  unfold declarationStep
  infer_instance

end Statements

theorem agreeing_declaration_statement (cell : Nat → β) (budget : Nat) :
    Agreeing (declaration budget : Limited cell Unit) (fun _ => declaration budget) ∧
      Agreeing (statement budget : Limited cell Unit) (fun _ => statement budget) := by
  induction budget with
  | zero => exact ⟨agreeing_throw .outOfBudget, agreeing_throw .outOfBudget⟩
  | succ budget ih =>
      obtain ⟨hdeclaration, hstatement⟩ := ih
      exact ⟨inferInstanceAs (Agreeing
          (declarationStep ⟨declaration budget, statement budget, budget + 1⟩ :
            Limited cell Unit)
          fun _ => declarationStep ⟨declaration budget, statement budget, budget + 1⟩),
        inferInstanceAs (Agreeing
          (statementStep ⟨declaration budget, statement budget, budget + 1⟩ :
            Limited cell Unit)
          fun _ => statementStep ⟨declaration budget, statement budget, budget + 1⟩)⟩

/-- A script is compiled in the same way with other cells, if all numbers fit. -/
theorem agrees_script (budget : Nat) : Agrees (fun b a => b = a.mapCells cell)
    (script budget : Limited cell (Function β)) fun _ => script budget := by
  have hdeclaration := (agreeing_declaration_statement cell budget).1
  have htake : Agrees (fun b a => b = a.mapCells cell)
      (do return (← takeFrame).1 : Limited cell (Function β))
      fun _ => (do return (← takeFrame).1) := by
    refine agrees_takeFrame.bind (fun _ => inferInstance) ?_
    rintro _ f rfl
    exact agrees_pure rfl
  have hend : Agrees (fun b a => b = a.mapCells cell)
      (do
        emitReturn
        return (← takeFrame).1 : Limited cell (Function β))
      fun _ => (do
        emitReturn
        return (← takeFrame).1) :=
    Agreeing.agrees.bind (R := Eq) (fun _ => htake.measuring) fun _ _ _ => htake
  unfold script
  simp only [endFrame_eq, bind_assoc]
  exact Agreeing.agrees.bind (R := Eq) (fun _ => hend.measuring) fun _ _ _ => hend

end LoxCompiler.Compile
