import LoxCompiler.Proofs.Viable.Expression

/-! # Programs follow their goals

Every construct takes the tokens of its goals, unless it gets lost. By induction on the budget,
declarations and statements do so, and so does a whole script up to the end of the input.
-/

set_option synthInstance.maxSize 4096

namespace LoxCompiler.Compile

open Reader

variable {tokens : List (Token Symbol)} {gs : List Goal} {β : Type} {w : Width β}

instance : Still (previousName : Compile w.settings Symbol) := by
  unfold previousName
  exact .bind fun token => by split <;> infer_instance

/-! ## Parts without a declaration or statement inside -/

/-- The condition of a loop up to a closing brace. -/
theorem follows_inside {g : Goal} (first : List Goal)
    (hrefine : ∀ k, g.refine k = some
      (if k = .closeBrace ∨ k = .endOfInput then [.token .closeBrace] else first ++ [g])) :
    Follows tokens (Faces tokens (g :: gs))
      (do return !(← check .closeBrace) && !(← check .endOfInput) : Compile w.settings Bool)
      fun more r =>
        if more then Faces tokens (first ++ g :: gs) r
        else Faces tokens (.token .closeBrace :: gs) r := by
  refine .check fun closed => .check fun ended => .pure_of fun r hr => ?_
  obtain ⟨⟨hfaces, rfl⟩, rfl⟩ := hr
  have hfaces := hfaces.refine (hrefine r.current.kind)
  by_cases hend : r.current.kind = .closeBrace ∨ r.current.kind = .endOfInput
  · rw [if_pos hend] at hfaces
    rw [if_neg (by rcases hend with h | h <;> simp [h])]
    exact hfaces
  · rw [if_neg hend, List.append_assoc] at hfaces
    rw [if_pos (by simpa [not_or] using hend)]
    exact hfaces

theorem follows_declaredName (message : String) :
    Follows tokens (Faces tokens (.name :: gs)) (declaredName message : Compile w.settings Nat)
      fun _ => Faces tokens gs := by
  unfold declaredName
  exact Follows.consumeIdentifier.before

theorem follows_parameter (count : Nat) :
    Follows tokens (Faces tokens (.name :: gs)) (parameter count : Compile w.settings Unit)
      fun _ => Faces tokens gs := by
  unfold parameter
  dsimp only
  exact .after fun _ => .guard (follows_declaredName _).before

theorem follows_superclassClause (name : Symbol) :
    Follows tokens (Faces tokens (.name :: gs))
      (superclassClause name : Compile w.settings Unit) fun _ => Faces tokens gs := by
  unfold superclassClause
  exact Follows.consumeIdentifier.before

section Expressions

variable (inner : Inner w.settings)

theorem follows_varDeclaration :
    Follows tokens (Faces tokens (.name :: .initial :: gs)) (varDeclaration inner) fun _ =>
      Faces tokens gs := by
  unfold varDeclaration
  dsimp only
  refine (follows_declaredName _).bind fun global =>
    .choice (.expression .assignment :: .token .semicolon :: gs) (by simp) (fun r hr hassign => ?_)
      ((follows_expression _).bind fun _ => .before (.consume (by simp)))
      (.after fun _ => .of (P := Faces tokens (.token .semicolon :: gs)) (fun r hr => ?_)
        (.before (.consume (by simp))))
  · exact hr.refine (by rw [Goal.refine, if_pos hassign])
  · exact hr.1.refine (by rw [Goal.refine, if_neg hr.2])

theorem follows_expressionStatement :
    Follows tokens (Faces tokens (.expression .assignment :: .token .semicolon :: gs))
      (expressionStatement inner) fun _ => Faces tokens gs := by
  unfold expressionStatement
  exact (follows_expression _).bind fun _ => .before (.consume (by simp))

theorem follows_printStatement :
    Follows tokens (Faces tokens (.expression .assignment :: .token .semicolon :: gs))
      (printStatement inner) fun _ => Faces tokens gs := by
  unfold printStatement
  exact (follows_expression _).bind fun _ => .before (.consume (by simp))

theorem follows_forInitializer :
    Follows tokens (Faces tokens (.first :: gs)) (forInitializer inner) fun _ =>
      Faces tokens gs := by
  unfold forInitializer
  refine .choice gs (by simp) (fun r hr hkind => ?_) (.pure_of fun _ hr => hr)
    (.choice (.name :: .initial :: gs) (by simp) (fun r hr hkind => ?_)
      (follows_varDeclaration inner) (.of (fun r hr => ?_) (follows_expressionStatement inner)))
  · exact hr.refine (by rw [Goal.refine, if_pos hkind])
  · exact hr.1.refine (by rw [Goal.refine, if_neg hr.2, if_pos hkind])
  · exact hr.1.1.refine (by rw [Goal.refine, if_neg hr.1.2, if_neg hr.2])

/-- An expression that may be absent, before a step that takes the token after it. -/
theorem follows_optional {α : Type} {closing : Kind} {absent present : Compile w.settings α}
    {R : α → Reader → Prop} [Orderly absent] [Orderly present] (hclosing : closing ≠ .endOfInput)
    (habsent : Follows tokens (Faces tokens gs) absent R)
    (hpresent : Follows tokens (Faces tokens (.expression .assignment :: .token closing :: gs))
      present R) :
    Follows tokens (Faces tokens (.optional closing :: gs))
      (do if ← accept closing then absent else present) R := by
  refine .choice gs hclosing (fun r hr hkind => ?_) habsent (.of (fun r hr => ?_) hpresent)
  · exact hr.refine (by rw [Goal.refine, if_pos hkind])
  · exact hr.1.refine (by rw [Goal.refine, if_neg hr.2])

theorem follows_forCondition :
    Follows tokens (Faces tokens (.optional .semicolon :: gs)) (forCondition inner) fun _ =>
      Faces tokens gs := by
  unfold forCondition
  exact follows_optional (by simp) (.pure_of fun _ hr => hr)
    ((follows_expression _).bind fun _ => .before (.consume (by simp)))

theorem follows_forIncrement (start : Nat) :
    Follows tokens (Faces tokens (.optional .closeParen :: gs)) (forIncrement inner start)
      fun _ => Faces tokens gs := by
  unfold forIncrement
  exact follows_optional (by simp) (.pure_of fun _ hr => hr)
    (.after fun body => .after fun increment => (follows_expression _).bind fun _ => .after fun _ =>
      .before (.consume (by simp)))

theorem follows_returnStatement :
    Follows tokens (Faces tokens (.optional .semicolon :: gs)) (returnStatement inner) fun _ =>
      Faces tokens gs := by
  unfold returnStatement
  dsimp only
  exact .after fun f => .guard (follows_optional (by simp) .still
    (.guard ((follows_expression _).bind fun _ => .before (.consume (by simp)))))

theorem follows_parameterList :
    Follows tokens (Faces tokens (.parameters :: gs)) (parameterList inner) fun _ =>
      Faces tokens (.token .closeParen :: gs) := by
  unfold parameterList
  dsimp only
  refine .ifCheck (.after fun count => .of (fun r hr => ?_) .still)
    (.before (.of (P := Faces tokens (.name :: .moreParameters :: gs)) (fun r hr => ?_)
      (.separated follows_parameter (fun _ => rfl) _ _)))
  · exact hr.1.refine (by rw [Goal.refine, if_pos hr.2])
  · exact hr.1.refine (by rw [Goal.refine, if_neg hr.2])

end Expressions

/-! ## Statements and declarations -/

/-- Declarations and statements inside another one follow their goals. -/
structure FollowsInner (tokens : List (Token Symbol)) (inner : Inner w.settings) : Prop where
  declaration : ∀ gs, Follows tokens (Faces tokens (.declaration :: gs)) inner.declaration fun _ =>
    Faces tokens gs
  statement : ∀ gs, Follows tokens (Faces tokens (.statement :: gs)) inner.statement fun _ =>
    Faces tokens gs

section Statements

variable {inner : Inner w.settings} [Orderly inner.declaration] [Orderly inner.statement]
  (hinner : FollowsInner tokens inner)
include hinner

omit [Orderly inner.statement] in
theorem follows_block :
    Follows tokens (Faces tokens (.block :: gs)) (block inner) fun _ => Faces tokens gs := by
  unfold block
  exact (Follows.repeatWhile (follows_inside [.declaration] fun _ => rfl)
    (hinner.declaration _) _).bind fun _ => .consume (by simp)

omit [Orderly inner.declaration] in
theorem follows_ifStatement :
    Follows tokens (Faces tokens (.token .openParen :: .expression .assignment ::
        .token .closeParen :: .statement :: .otherwise :: gs)) (ifStatement inner) fun _ =>
      Faces tokens gs := by
  unfold ifStatement
  dsimp only
  refine .token (by simp) ((follows_expression _).bind fun _ => .token (by simp) (.after fun _ =>
    .after fun _ => (hinner.statement _).bind fun _ => .after fun done => .after fun _ =>
      .after fun _ => .choice (.statement :: gs) (by simp) (fun r hr hkind => ?_)
        (hinner.statement _).before (.of (fun r hr => ?_) .still)))
  · exact hr.refine (by rw [Goal.refine, if_pos hkind])
  · exact hr.1.skip (by rw [Goal.refine, if_neg hr.2])

omit [Orderly inner.declaration] in
theorem follows_whileStatement :
    Follows tokens (Faces tokens (.token .openParen :: .expression .assignment ::
        .token .closeParen :: .statement :: gs)) (whileStatement inner) fun _ =>
      Faces tokens gs := by
  unfold whileStatement
  exact .after fun start => .token (by simp) ((follows_expression _).bind fun _ =>
    .token (by simp) (.after fun exit => .after fun _ => (hinner.statement _).before))

omit [Orderly inner.declaration] in
theorem follows_forStatement :
    Follows tokens (Faces tokens (.token .openParen :: .first :: .optional .semicolon ::
        .optional .closeParen :: .statement :: gs)) (forStatement inner) fun _ =>
      Faces tokens gs := by
  rw [forStatement_eq]
  exact .after fun _ => .token (by simp) ((follows_forInitializer inner).bind fun _ =>
    .after fun start => (follows_forCondition inner).bind fun exit =>
      (follows_forIncrement inner start).bind fun next => (hinner.statement _).before)

omit [Orderly inner.statement] in
theorem follows_blockStatement :
    Follows tokens (Faces tokens (.block :: gs)) (blockStatement inner) fun _ =>
      Faces tokens gs := by
  unfold blockStatement
  exact .after fun _ => (follows_block hinner).before

omit hinner in
omit [Orderly inner.declaration] [Orderly inner.statement] in
/-- The word that starts a statement is taken, and then what belongs to it. -/
theorem follows_word {kind : Kind} {first : List Goal} {token : Token Symbol}
    {m : Compile w.settings Unit} [Orderly m] (htoken : token.kind = kind)
    (hfirst : Goal.startStatement kind = .token kind :: first)
    (hm : Follows tokens (Faces tokens (first ++ gs)) m fun _ => Faces tokens gs) :
    Follows tokens (fun r => Faces tokens (.statement :: gs) r ∧ r.current = token)
      (do advance; m) fun _ => Faces tokens gs := by
  refine (Follows.advance (R := fun _ => Faces tokens (first ++ gs)) fun r hr => ?_).bind
    fun _ => hm
  obtain ⟨hfaces, rfl⟩ := hr
  subst htoken
  have hend : r.current.kind ≠ .endOfInput := by
    intro hend
    rw [hend] at hfirst
    cases hfirst
  exact (hfaces.refine (congrArg some hfirst)).take rfl hend

theorem follows_statementStep :
    Follows tokens (Faces tokens (.statement :: gs)) (statementStep inner) fun _ =>
      Faces tokens gs := by
  unfold statementStep
  refine .current fun token => ?_
  split
  case h_1 h => exact follows_word h rfl (follows_printStatement inner)
  case h_2 h => exact follows_word h rfl (follows_forStatement hinner)
  case h_3 h => exact follows_word h rfl (follows_ifStatement hinner)
  case h_4 h => exact follows_word h rfl (follows_returnStatement inner)
  case h_5 h => exact follows_word h rfl (follows_whileStatement hinner)
  case h_6 h => exact follows_word h rfl (follows_blockStatement hinner)
  case h_7 =>
    refine .of (fun r hr => ?_) (follows_expressionStatement inner)
    obtain ⟨hfaces, rfl⟩ := hr
    have hfirst : Goal.startStatement r.current.kind =
        [.expression .assignment, .token .semicolon] := by
      unfold Goal.startStatement
      split <;> first | contradiction | rfl
    exact hfaces.refine (congrArg some hfirst)

omit [Orderly inner.statement] in
theorem follows_function (kind : FunctionKind) :
    Follows tokens (Faces tokens (.token .openParen :: .parameters :: .token .openBrace ::
        .block :: gs)) (function inner kind) fun _ => Faces tokens gs := by
  rw [function_eq]
  exact .after fun name => .after fun _ => .after fun _ => .token (by simp)
    ((follows_parameterList inner).bind fun _ => .token (by simp) (.token (by simp)
      (follows_block hinner).before))

omit [Orderly inner.statement] in
theorem follows_funDeclaration :
    Follows tokens (Faces tokens (Goal.function ++ gs)) (funDeclaration inner) fun _ =>
      Faces tokens gs := by
  unfold funDeclaration
  exact (follows_declaredName _).bind fun global => .after fun _ =>
    (follows_function hinner _).before

omit [Orderly inner.statement] in
theorem follows_method :
    Follows tokens (Faces tokens (Goal.function ++ gs)) (method inner) fun _ =>
      Faces tokens gs := by
  unfold method
  dsimp only
  exact Follows.consumeIdentifier.bind fun name => .after fun constant => .after fun s =>
    (follows_function hinner _).before

omit [Orderly inner.statement] in
theorem follows_classBody (name : Symbol) :
    Follows tokens (Faces tokens (.token .openBrace :: .methods :: gs)) (classBody inner name)
      fun _ => Faces tokens gs := by
  unfold classBody
  exact .after fun _ => .token (by simp) ((Follows.repeatWhile
    (follows_inside Goal.function fun _ => rfl) (follows_method hinner) _).bind fun _ =>
      .before (.consume (by simp)))

omit [Orderly inner.statement] in
theorem follows_classDeclaration :
    Follows tokens (Faces tokens (.name :: .superclass :: .token .openBrace :: .methods :: gs))
      (classDeclaration inner) fun _ => Faces tokens gs := by
  rw [classDeclaration_eq]
  refine Follows.consumeIdentifier.bind fun name => .after fun constant => .after fun _ =>
    .after fun _ => .after fun _ => .after fun _ =>
      .choice (.name :: .token .openBrace :: .methods :: gs) (by simp) (fun r hr hkind => ?_)
        ((follows_superclassClause name).bind fun _ => follows_classBody hinner name)
        (.of (fun r hr => ?_) (follows_classBody hinner name))
  · exact hr.refine (by rw [Goal.refine, if_pos hkind])
  · exact hr.1.skip (by rw [Goal.refine, if_neg hr.2])

theorem follows_declarationStep :
    Follows tokens (Faces tokens (.declaration :: gs)) (declarationStep inner) fun _ =>
      Faces tokens gs := by
  unfold declarationStep
  dsimp only
  refine .choice (.name :: .superclass :: .token .openBrace :: .methods :: gs) (by simp)
    (fun r hr hkind => ?_) ((follows_classDeclaration hinner).bind fun _ => .recover)
    (.choice (Goal.function ++ gs) (by simp) (fun r hr hkind => ?_)
      ((follows_funDeclaration hinner).bind fun _ => .recover)
      (.choice (.name :: .initial :: gs) (by simp) (fun r hr hkind => ?_)
        ((follows_varDeclaration inner).bind fun _ => .recover)
        (.of (fun r hr => ?_) ((follows_statementStep hinner).bind fun _ => .recover))))
  · exact hr.refine (by rw [hkind]; rfl)
  · exact hr.1.refine (by rw [hkind]; rfl)
  · exact hr.1.1.refine (by rw [hkind]; rfl)
  · have hfirst : Goal.startDeclaration r.current.kind = [.statement] := by
      unfold Goal.startDeclaration
      split
      case h_1 h => exact absurd h hr.1.1.2
      case h_2 h => exact absurd h hr.1.2
      case h_3 h => exact absurd h hr.2
      case h_4 => rfl
    exact hr.1.1.1.refine (congrArg some hfirst)

end Statements

/-! ## Programs -/

theorem follows_declaration_statement (budget : Nat) (gs : List Goal) :
    Follows tokens (Faces tokens (.declaration :: gs))
        (declaration budget : Compile w.settings Unit) (fun _ => Faces tokens gs) ∧
      Follows tokens (Faces tokens (.statement :: gs))
        (statement budget : Compile w.settings Unit) fun _ => Faces tokens gs := by
  induction budget generalizing gs with
  | zero => exact ⟨.throw, .throw⟩
  | succ budget ih =>
      let inner : Inner w.settings := ⟨declaration budget, statement budget, budget + 1⟩
      have : Orderly inner.declaration := inferInstanceAs (Orderly (declaration budget))
      have : Orderly inner.statement := inferInstanceAs (Orderly (statement budget))
      have hinner : FollowsInner tokens inner := ⟨fun gs => (ih gs).1, fun gs => (ih gs).2⟩
      exact ⟨follows_declarationStep hinner, follows_statementStep hinner⟩

/-- A script takes all tokens up to the end of the input, unless it gets lost. -/
theorem follows_script (budget : Nat) :
    Follows tokens (Faces tokens [.script])
      (script budget : Compile w.settings (Function β)) fun _ _ => True := by
  have hcondition : Follows tokens (Faces tokens [.script])
      (do return !(← accept .endOfInput) : Compile w.settings Bool) fun more r =>
        if more then Faces tokens [.declaration, .script] r else True := by
    refine (Follows.accept (R := fun found r =>
      if found then True else Faces tokens [.declaration, .script] r) (fun _ _ _ => trivial)
      fun r hr hkind => ?_).bind fun found => .pure_of fun r hr => ?_
    · exact hr.refine (by rw [Goal.refine, if_neg hkind])
    · cases found <;> exact hr
  unfold script
  exact (Follows.repeatWhile hcondition (follows_declaration_statement budget _).1 _).bind fun _ =>
    .mono .still (fun _ _ => trivial) fun _ _ _ => trivial

end LoxCompiler.Compile
