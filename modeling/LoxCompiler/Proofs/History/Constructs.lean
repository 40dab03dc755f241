import LoxCompiler.Proofs.History.Steps
import LoxCompiler.Proofs.Safety.Progress

/-! # The states that constructs come to

Every construct is traced, given that what stands inside it is. By induction on the budget, so are
whole expressions, declarations and scripts. No cell is appended before a token was taken.
-/

set_option synthInstance.maxSize 4096

namespace LoxCompiler.Compile

variable {β : Type} {w : Width β} {given : Function β → Prop} {α γ : Type} {s t : Session β}

/-! ## Expressions -/

section Expressions

variable (operand : Precedence → Compile w.settings Unit) (operand' : Precedence → Audited w Unit)
  [hoperand : ∀ level, Traced given (operand level) (operand' level)]

instance (canAssign : Bool) :
    Traced given (acceptAssign canAssign : Compile w.settings Bool)
      fun _ => acceptAssign canAssign := by
  unfold acceptAssign
  infer_instance

instance : Traced given (grouping operand)
    fun audit => grouping fun level => operand' level audit := by
  unfold grouping
  infer_instance

instance : Traced given (unary operand) fun audit => unary fun level => operand' level audit := by
  unfold unary
  infer_instance

instance : Traced given (binary operand) fun audit => binary fun level => operand' level audit := by
  unfold binary
  infer_instance

instance :
    Traced given (conjunction operand)
      fun audit => conjunction fun level => operand' level audit := by
  unfold conjunction
  infer_instance

instance :
    Traced given (disjunction operand)
      fun audit => disjunction fun level => operand' level audit := by
  unfold disjunction
  infer_instance

omit hoperand in
instance : Traced given (numberLiteral : Compile w.settings Unit) fun _ => numberLiteral := by
  unfold numberLiteral
  refine .bind fun token => ?_
  rcases token.kind with _ | _ | _ | (_ | _ | _ | _) | _ | _ | _ | _ | _ | _ | _ | _ <;>
    infer_instance

omit hoperand in
instance : Traced given (stringLiteral : Compile w.settings Unit) fun _ => stringLiteral := by
  unfold stringLiteral
  refine .bind fun token => ?_
  rcases token.kind with _ | _ | _ | (_ | _ | _ | _) | _ | _ | _ | _ | _ | _ | _ | _ <;>
    infer_instance

omit hoperand in
instance : Traced given (wordLiteral : Compile w.settings Unit) fun _ => wordLiteral := by
  unfold wordLiteral
  refine .bind fun token => ?_
  rcases token.kind with _ | _ | _ | (_ | (_ | _) | _ | _) | _ | _ | _ | _ | _ | _ | _ | _ <;>
    infer_instance

instance (canAssign : Bool) : Traced given (named operand canAssign)
    fun audit => named (fun level => operand' level audit) canAssign := by
  unfold named
  exact .bind fun token => by cases token.kind <;> infer_instance

omit hoperand in
instance : Traced given (receiver : Compile w.settings Unit) fun _ => receiver := by
  unfold receiver
  infer_instance

instance (budget : Nat) : Traced given (argumentList operand budget)
    fun audit => argumentList (fun level => operand' level audit) budget := by
  unfold argumentList
  infer_instance

instance (budget : Nat) : Traced given (call operand budget)
    fun audit => call (fun level => operand' level audit) budget := by
  unfold call
  infer_instance

instance (budget : Nat) (canAssign : Bool) : Traced given (property operand budget canAssign)
    fun audit => property (fun level => operand' level audit) budget canAssign := by
  unfold property
  infer_instance

instance (budget : Nat) : Traced given (superclass operand budget)
    fun audit => superclass (fun level => operand' level audit) budget := by
  unfold superclass
  dsimp only
  infer_instance

instance (budget : Nat) (canAssign : Bool) (leading : Leading) :
    Traced given (lead operand budget canAssign leading)
      fun audit => lead (fun level => operand' level audit) budget canAssign leading := by
  cases leading <;> unfold lead <;> infer_instance

instance (budget : Nat) (canAssign : Bool) (continuing : Continuing) :
    Traced given (extend operand budget canAssign continuing)
      fun audit => extend (fun level => operand' level audit) budget canAssign continuing := by
  cases continuing <;> unfold extend <;> infer_instance

instance (budget : Nat) (level : Precedence) : Traced given (operator operand budget level)
    fun audit => operator (fun level => operand' level audit) budget level := by
  unfold operator
  refine .bind fun _ => .bind fun token => ?_
  cases (Rule.ofKind token.kind).continuing <;> infer_instance

omit hoperand in
instance (level : Precedence) :
    Traced given (atOperator level : Compile w.settings Bool) fun _ => atOperator level := by
  unfold atOperator
  infer_instance

instance (budget : Nat) (level : Precedence) : Traced given (operators operand budget level)
    fun audit => operators (fun level => operand' level audit) budget level := by
  unfold operators
  infer_instance

instance (budget : Nat) (level : Precedence) (token : Token Symbol) :
    Traced given (expressionFrom operand budget level token)
      fun audit => expressionFrom (fun level => operand' level audit) budget level token := by
  unfold expressionFrom
  cases (Rule.ofKind token.kind).leading <;> infer_instance

instance (budget : Nat) (level : Precedence) : Traced given (expressionStep operand budget level)
    fun audit => expressionStep (fun level => operand' level audit) budget level := by
  simp only [expressionStep_eq]
  infer_instance

end Expressions

instance traced_expressionAt (budget : Nat) (level : Precedence) :
    Traced given (expressionAt budget level : Compile w.settings Unit)
      fun _ => expressionAt budget level := by
  induction budget generalizing level with
  | zero => exact traced_throw .outOfBudget
  | succ budget ih =>
      exact inferInstanceAs (Traced given
        (expressionStep (expressionAt budget) (budget + 1) level : Compile w.settings Unit)
        fun _ => expressionStep (expressionAt budget) (budget + 1) level)

instance (budget : Nat) :
    Traced given (expression budget : Compile w.settings Unit) fun _ => expression budget := by
  unfold expression
  infer_instance

/-! ## Statements and declarations -/

instance (exit : Option Nat) :
    Traced given (leaveLoop exit : Compile w.settings Unit) fun _ => leaveLoop exit := by
  cases exit <;> unfold leaveLoop <;> infer_instance

/-- A closure is made of a function that is given. -/
theorem traced_emitClosure {finished : Function β × List Upvalue} (h : given finished.1) :
    Traced given (emitClosure finished : Compile w.settings Unit)
      fun _ => emitClosure finished := by
  have hconstant : Traced given (addConstant (.function finished.1) : Compile w.settings Nat)
      fun _ => addConstant (.function finished.1) :=
    traced_addConstant fun g hg => Constant.function.inj hg ▸ h
  unfold emitClosure
  infer_instance

section Statements

variable (declaration statement : Compile w.settings Unit)
  (declaration' statement' : Audited w Unit) (budget : Nat)
  [hdeclaration : Traced given declaration declaration']
  [hstatement : Traced given statement statement']

omit hstatement in
instance : Traced given (block ⟨declaration, statement, budget⟩)
    fun audit => block ⟨declaration' audit, statement' audit, budget⟩ := by
  unfold block
  infer_instance

omit hdeclaration hstatement in
instance : Traced given (varDeclaration ⟨declaration, statement, budget⟩)
    fun audit => varDeclaration ⟨declaration' audit, statement' audit, budget⟩ := by
  unfold varDeclaration
  infer_instance

omit hdeclaration hstatement in
instance : Traced given (expressionStatement ⟨declaration, statement, budget⟩)
    fun audit => expressionStatement ⟨declaration' audit, statement' audit, budget⟩ := by
  unfold expressionStatement
  infer_instance

omit hdeclaration hstatement in
instance : Traced given (printStatement ⟨declaration, statement, budget⟩)
    fun audit => printStatement ⟨declaration' audit, statement' audit, budget⟩ := by
  unfold printStatement
  infer_instance

omit hdeclaration in
instance : Traced given (ifStatement ⟨declaration, statement, budget⟩)
    fun audit => ifStatement ⟨declaration' audit, statement' audit, budget⟩ := by
  unfold ifStatement
  dsimp only
  infer_instance

omit hdeclaration in
instance : Traced given (whileStatement ⟨declaration, statement, budget⟩)
    fun audit => whileStatement ⟨declaration' audit, statement' audit, budget⟩ := by
  unfold whileStatement
  infer_instance

omit hdeclaration hstatement in
instance : Traced given (forInitializer ⟨declaration, statement, budget⟩)
    fun audit => forInitializer ⟨declaration' audit, statement' audit, budget⟩ := by
  unfold forInitializer
  infer_instance

omit hdeclaration hstatement in
instance : Traced given (forCondition ⟨declaration, statement, budget⟩)
    fun audit => forCondition ⟨declaration' audit, statement' audit, budget⟩ := by
  unfold forCondition
  infer_instance

omit hdeclaration hstatement in
instance (start : Nat) : Traced given (forIncrement ⟨declaration, statement, budget⟩ start)
    fun audit => forIncrement ⟨declaration' audit, statement' audit, budget⟩ start := by
  unfold forIncrement
  infer_instance

omit hdeclaration in
instance : Traced given (forStatement ⟨declaration, statement, budget⟩)
    fun audit => forStatement ⟨declaration' audit, statement' audit, budget⟩ := by
  simp only [forStatement_eq]
  infer_instance

omit hdeclaration hstatement in
instance : Traced given (returnStatement ⟨declaration, statement, budget⟩)
    fun audit => returnStatement ⟨declaration' audit, statement' audit, budget⟩ := by
  unfold returnStatement
  infer_instance

omit hstatement in
instance : Traced given (blockStatement ⟨declaration, statement, budget⟩)
    fun audit => blockStatement ⟨declaration' audit, statement' audit, budget⟩ := by
  unfold blockStatement
  infer_instance

instance : Traced given (statementStep ⟨declaration, statement, budget⟩)
    fun audit => statementStep ⟨declaration' audit, statement' audit, budget⟩ := by
  unfold statementStep
  refine .bind fun token => ?_
  rcases token.kind with _ | (_ | _ | _ | _ | _ | _ | _ | _ | _ | _ | _) | _ | _ | _ | _ | _ | _ |
    _ | _ | _ | _ <;> infer_instance

omit hdeclaration hstatement in
instance : Traced given (previousName : Compile w.settings Symbol) fun _ => previousName := by
  unfold previousName
  exact .bind fun token => by cases token.kind <;> infer_instance

omit hdeclaration hstatement in
instance (count : Nat) :
    Traced given (parameter count : Compile w.settings Unit) fun _ => parameter count := by
  unfold parameter
  infer_instance

omit hdeclaration hstatement in
instance : Traced given (parameterList ⟨declaration, statement, budget⟩)
    fun audit => parameterList ⟨declaration' audit, statement' audit, budget⟩ := by
  unfold parameterList
  infer_instance

omit hstatement in
instance (kind : FunctionKind) : Traced given (function ⟨declaration, statement, budget⟩ kind)
    fun audit => function ⟨declaration' audit, statement' audit, budget⟩ kind := by
  have hend : Traced given (endFrame >>= emitClosure : Compile w.settings Unit)
      fun _ => endFrame >>= emitClosure := by
    simp only [endFrame_eq, bind_assoc]
    exact .bind fun _ => ⟨fun s => tracedFrom_takeFrame_bind fun finished =>
      traced_emitClosure (.inr rfl)⟩
  simp only [function_eq]
  infer_instance

omit hstatement in
instance : Traced given (funDeclaration ⟨declaration, statement, budget⟩)
    fun audit => funDeclaration ⟨declaration' audit, statement' audit, budget⟩ := by
  unfold funDeclaration
  infer_instance

omit hstatement in
instance : Traced given (method ⟨declaration, statement, budget⟩)
    fun audit => method ⟨declaration' audit, statement' audit, budget⟩ := by
  unfold method
  infer_instance

omit hdeclaration hstatement in
instance (name : Symbol) :
    Traced given (superclassClause name : Compile w.settings Unit)
      fun _ => superclassClause name := by
  unfold superclassClause
  infer_instance

omit hstatement in
instance (name : Symbol) : Traced given (classBody ⟨declaration, statement, budget⟩ name)
    fun audit => classBody ⟨declaration' audit, statement' audit, budget⟩ name := by
  unfold classBody
  infer_instance

omit hstatement in
instance : Traced given (classDeclaration ⟨declaration, statement, budget⟩)
    fun audit => classDeclaration ⟨declaration' audit, statement' audit, budget⟩ := by
  simp only [classDeclaration_eq]
  infer_instance

instance : Traced given (declarationStep ⟨declaration, statement, budget⟩)
    fun audit => declarationStep ⟨declaration' audit, statement' audit, budget⟩ := by
  unfold declarationStep
  infer_instance

end Statements

theorem traced_declaration_statement (budget : Nat) :
    (Traced given (declaration budget : Compile w.settings Unit) fun _ => declaration budget) ∧
      Traced given (statement budget : Compile w.settings Unit) fun _ => statement budget := by
  induction budget with
  | zero => exact ⟨traced_throw .outOfBudget, traced_throw .outOfBudget⟩
  | succ budget ih =>
      obtain ⟨hdeclaration, hstatement⟩ := ih
      constructor
      · exact inferInstanceAs (Traced given
          (declarationStep ⟨declaration budget, statement budget, budget + 1⟩ :
            Compile w.settings Unit)
          fun _ => declarationStep ⟨declaration budget, statement budget, budget + 1⟩)
      · exact inferInstanceAs (Traced given
          (statementStep ⟨declaration budget, statement budget, budget + 1⟩ :
            Compile w.settings Unit)
          fun _ => statementStep ⟨declaration budget, statement budget, budget + 1⟩)

instance (budget : Nat) :
    Traced given (declaration budget : Compile w.settings Unit) fun _ => declaration budget :=
  (traced_declaration_statement budget).1

instance (budget : Nat) :
    Traced given (statement budget : Compile w.settings Unit) fun _ => statement budget :=
  (traced_declaration_statement budget).2

/-! ## The first cell -/

/-- A change appends nothing, or a token was taken before it. -/
def AppendsAfter (r : Reader) (u v : Session β) : Prop :=
  List.Forall₂ Frame.SameLines u.frames v.frames ∨ r.TakenBefore u.reader

/-- The runs of a step from some state come to states in turn, and take a token before they append
anything. -/
def TakesFirst (given : Function β → Prop) (s : Session β) (m : Compile w.settings α)
    (m' : Audited w α) : Prop :=
  ∀ ⦃a t⦄, m.run s = .ok (a, t) → ∃ later, Journey given m' s a t later ∧
    s.reader.TakenBefore t.reader ∧ List.IsChain (AppendsAfter s.reader) (s :: later)

namespace TakesFirst

variable {m : Compile w.settings α} {m' : Audited w α} {k : α → Compile w.settings γ}
  {k' : α → Audited w γ}

/-- Once a token was taken, anything may be written. -/
theorem append {n' : Audited w γ} {a : α} {b : γ} {u : Session β} {later more : List (Session β)}
    (hm : Journey given m' s a t later) (htaken : s.reader.TakenBefore t.reader)
    (hbefore : List.IsChain (AppendsAfter s.reader) (s :: later))
    (hmore : Journey given n' t b u more) : s.reader.TakenBefore u.reader ∧
      List.IsChain (AppendsAfter s.reader) (s :: (later ++ more)) := by
  have hafter : List.IsChain (AppendsAfter s.reader) (t :: more) :=
    hmore.appends.imp_of_mem_imp fun v _ hv _ _ => .inr (htaken.trans (hmore.leadsTo_of_mem hv))
  rw [isChain_cons_append, hm.last]
  exact ⟨htaken.trans hmore.leadsTo, hbefore, hafter⟩

theorem bind (hm : TakesFirst given s m m')
    (hk : ∀ a t, m.run s = .ok (a, t) → TracedFrom given t (k a) (k' a)) :
    TakesFirst given s (m >>= k) fun audit => m' audit >>= fun a => k' a audit := by
  intro b u hrun
  obtain ⟨a, t, hfirst, hsecond⟩ := ok_of_run_bind hrun
  obtain ⟨later, hlater, htaken, hbefore⟩ := hm hfirst
  obtain ⟨more, hmore⟩ := hk a t hfirst hsecond
  exact ⟨later ++ more, hlater.bind hmore fun _ => .inl, append hlater htaken hbefore hmore⟩

/-- What comes first may append nothing. -/
theorem after (hm : ∀ a t, m.run s = .ok (a, t) → ∃ later, Journey given m' s a t later ∧
      List.IsChain (fun u v => List.Forall₂ Frame.SameLines u.frames v.frames) (s :: later) ∧
      TakesFirst given t (k a) (k' a)) :
    TakesFirst given s (m >>= k) fun audit => m' audit >>= fun a => k' a audit := by
  intro b u hrun
  obtain ⟨a, t, hfirst, hsecond⟩ := ok_of_run_bind hrun
  obtain ⟨later, hlater, hstill, hk⟩ := hm a t hfirst
  obtain ⟨more, hmore, htaken, hbefore⟩ := hk hsecond
  refine ⟨later ++ more, hlater.bind hmore fun _ => .inl, hlater.leadsTo.takenBefore htaken, ?_⟩
  rw [isChain_cons_append, hlater.last]
  exact ⟨hstill.imp fun _ _ h => .inl h,
    hbefore.imp fun _ _ h => h.imp_right hlater.leadsTo.takenBefore⟩

theorem current_bind {k : Token Symbol → Compile w.settings γ} {k' : Token Symbol → Audited w γ}
    (hk : TakesFirst given s (k s.reader.current) (k' s.reader.current)) :
    TakesFirst given s (current >>= k) fun audit => current >>= fun token => k' token audit :=
  .after fun token t hrun => by
    cases hrun
    exact ⟨[], .still fun _ _ => rfl, .singleton s, hk⟩

theorem startExpression_bind {k : Unit → Compile w.settings γ} {k' : Unit → Audited w γ}
    (hk : TakesFirst given s (k ()) (k' ())) :
    TakesFirst given s (startExpression >>= k)
      fun audit => startExpression >>= fun a => k' a audit :=
  .after fun a t hrun => by
    have hstill : Except.ok ((), s) = .ok (a, t) := hrun
    cases hstill
    exact ⟨[], journey_startExpression s, .singleton s, hk⟩

/-- Taking the next token is a change of the reader. -/
theorem journey_changeReader (s : Session β) (f : Reader → α × Reader)
    (hf : s.reader.LeadsTo (f s.reader).2) :
    Journey given (fun _ => changeReader f : Audited w α) s (f s.reader).1
        { s with reader := (f s.reader).2 } [{ s with reader := (f s.reader).2 }] ∧
      List.IsChain (fun u v => List.Forall₂ Frame.SameLines u.frames v.frames)
        [s, { s with reader := (f s.reader).2 }] :=
  ⟨.change rfl ⟨hf, .keep (Frames.sameLines_refl _)⟩,
    .cons_cons (Frames.sameLines_refl _) (.singleton _)⟩

theorem advance (s : Session β) :
    TakesFirst given s (Compile.advance : Compile w.settings Unit) fun _ => Compile.advance := by
  intro a t hrun
  cases hrun
  obtain ⟨hjourney, hstill⟩ :=
    journey_changeReader s (fun r => ((), r.advance)) fun _ hP => hP.advance _
  exact ⟨_, hjourney, Reader.takenBefore_advance _, hstill.imp fun _ _ => .inl⟩

/-- If a token is taken, anything may come after it. -/
theorem accept_bind {kind : TokenKind Symbol} {k : Bool → Compile w.settings γ}
    {k' : Bool → Audited w γ} (htaken : Traced given (k true) (k' true))
    (hmissed : TakesFirst given s (k false) (k' false)) :
    TakesFirst given s (accept kind >>= k) fun audit => accept kind >>= fun a => k' a audit := by
  obtain ⟨hjourney, hstill⟩ := journey_changeReader s (·.accept kind) fun _ hP => hP.accept _ kind
  by_cases hkind : s.reader.current.kind = kind
  · have haccept : s.reader.accept kind = (true, s.reader.advance) := by
      simp [Reader.accept, Reader.check, hkind]
    rw [haccept] at hjourney hstill
    refine bind (fun a t hrun => ?_) fun a t hrun => ?_ <;> rw [run_accept_of_eq hkind] at hrun <;>
      cases hrun
    · exact ⟨_, hjourney, Reader.takenBefore_advance _, hstill.imp fun _ _ => .inl⟩
    · exact htaken.traced _
  · have haccept : s.reader.accept kind = (false, s.reader) := by
      simp [Reader.accept, Reader.check, hkind]
    rw [haccept] at hjourney hstill
    refine after fun a t hrun => ?_
    rw [run_accept_of_ne hkind] at hrun
    cases hrun
    exact ⟨_, hjourney, hstill, hmissed⟩

/-- If a token is taken, anything may be compiled. -/
theorem accept_cond {kind : TokenKind Symbol} {m n : Compile w.settings γ} {m' n' : Audited w γ}
    [Traced given m m'] [Traced given n n'] (hn : TakesFirst given s n n') :
    TakesFirst given s (accept kind >>= fun found => if found = true then m else n)
      fun audit => accept kind >>= fun found => if found = true then m' audit else n' audit :=
  accept_bind inferInstance hn

theorem throw (s : Session β) (fault : Fault) :
    TakesFirst given s (throw fault : Compile w.settings α) fun _ => throw fault := by
  intro a t hrun
  rw [run_throw] at hrun
  cases hrun

end TakesFirst

/-- An expression starts with a token. -/
theorem takesFirst_expression (s : Session β) (budget : Nat) :
    TakesFirst given s (expression budget : Compile w.settings Unit)
      fun _ => expression budget := by
  unfold expression
  cases budget with
  | zero => exact .throw s .outOfBudget
  | succ budget =>
      show TakesFirst given s (expressionStep (expressionAt budget) (budget + 1) .assignment)
        fun _ => expressionStep (expressionAt budget) (budget + 1) .assignment
      simp only [expressionStep_eq]
      exact .startExpression_bind ((TakesFirst.advance s).bind fun _ t _ => Traced.traced t)

section Statements

variable (declaration statement : Compile w.settings Unit)
  (declaration' statement' : Audited w Unit) (budget : Nat)
  [hdeclaration : Traced given declaration declaration']
  [hstatement : Traced given statement statement'] (s : Session β)

theorem takesFirst_statementStep :
    TakesFirst given s (statementStep ⟨declaration, statement, budget⟩)
      fun audit => statementStep ⟨declaration' audit, statement' audit, budget⟩ := by
  have hexpression : TakesFirst given s (expressionStatement ⟨declaration, statement, budget⟩)
      fun audit => expressionStatement ⟨declaration' audit, statement' audit, budget⟩ := by
    unfold expressionStatement
    exact (takesFirst_expression s budget).bind fun _ t _ => Traced.traced t
  unfold statementStep
  refine .current_bind ?_
  rcases s.reader.current.kind with _ | (_ | _ | _ | _ | _ | _ | _ | _ | _ | _ | _) | _ | _ | _ |
    _ | _ | _ | _ | _ | _ | _ <;>
    first | exact hexpression | exact (TakesFirst.advance s).bind fun _ t _ => Traced.traced t

theorem takesFirst_declarationStep :
    TakesFirst given s (declarationStep ⟨declaration, statement, budget⟩)
      fun audit => declarationStep ⟨declaration' audit, statement' audit, budget⟩ := by
  unfold declarationStep
  refine .accept_cond (.accept_cond (.accept_cond ?_))
  exact (takesFirst_statementStep declaration statement declaration' statement' budget s).bind
    fun _ t _ => Traced.traced t

end Statements

theorem takesFirst_declaration (s : Session β) (budget : Nat) :
    TakesFirst given s (declaration budget : Compile w.settings Unit)
      fun _ => declaration budget := by
  cases budget with
  | zero => exact .throw s .outOfBudget
  | succ budget =>
      exact takesFirst_declarationStep (declaration budget) (statement budget) _ _ (budget + 1) s

/-- The end of a function gives one that is under construction in one of the states. -/
theorem exists_journey_endFrame {f : Function β}
    (hrun : (endFrame >>= fun finished => pure finished.1 : Compile w.settings (Function β)).run s =
      .ok (f, t)) :
    ∃ later, Journey given (fun _ => endFrame >>= fun finished => pure finished.1 :
        Audited w (Function β)) s f t later ∧
      ∃ u ∈ s :: later, ∃ g ∈ u.frames, g.finish = f := by
  simp only [endFrame_eq, takeFrame_eq, bind_assoc] at hrun ⊢
  obtain ⟨_, u, hreturn, hrest⟩ := ok_of_run_bind hrun
  obtain ⟨g, v, hpop, hgive⟩ := ok_of_run_bind hrest
  obtain ⟨outer, hframes, -⟩ := of_run_popFrame hpop
  have hgiving : Traced given
      (giveFrame g >>= fun finished => pure finished.1 : Compile w.settings (Function β))
      fun _ => giveFrame g >>= fun finished => pure finished.1 := inferInstance
  obtain ⟨later, hlater⟩ := traced_emitReturn.traced s hreturn
  obtain ⟨more, hmore⟩ := traced_popFrame.traced u hpop
  obtain ⟨last, hlast⟩ := hgiving.traced v hgive
  have hfinish : g.finish = f := congrArg Prod.fst (Except.ok.inj hgive)
  refine ⟨_, hlater.bind (hmore.bind hlast fun _ => .inl) fun _ => .inl, u, ?_, g, ?_, hfinish⟩
  · exact (hlater.subset _).1 hlater.mem
  · rw [hframes]
    exact List.mem_cons_self

/-- A script takes a token first: that of its first declaration, or the end of the input. What it
gives is under construction in one of the states. -/
theorem exists_journey_script (given : Function β → Prop) {s t : Session β} {budget : Nat}
    {f : Function β}
    (hrun : (script budget : Compile w.settings (Function β)).run s = .ok (f, t)) :
    ∃ later, Journey given (fun _ => script budget : Audited w (Function β)) s f t later ∧
      List.IsChain (AppendsAfter s.reader) (s :: later) ∧
      ∃ u ∈ s :: later, ∃ g ∈ u.frames, g.finish = f := by
  have hloop : TakesFirst given s
      (repeatWhile (do return !(← accept .endOfInput)) (declaration budget) budget :
        Compile w.settings Unit)
      fun _ => repeatWhile (do return !(← accept .endOfInput)) (declaration budget) budget := by
    cases budget with
    | zero => exact .throw s .outOfBudget
    | succ budget =>
        unfold repeatWhile
        simp only [bind_assoc, pure_bind]
        exact .accept_bind inferInstance
          ((takesFirst_declaration s (budget + 1)).bind fun _ t _ => Traced.traced t)
  unfold script at hrun ⊢
  obtain ⟨_, u, hdeclarations, hend⟩ := ok_of_run_bind hrun
  obtain ⟨later, hlater, htaken, hbefore⟩ := hloop hdeclarations
  obtain ⟨more, hmore, v, hv, hfinish⟩ := exists_journey_endFrame hend
  exact ⟨later ++ more, hlater.bind hmore fun _ => .inl,
    (TakesFirst.append hlater htaken hbefore hmore).2, v, (hlater.subset more).2 hv, hfinish⟩

end LoxCompiler.Compile
