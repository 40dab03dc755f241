import LoxCompiler.Proofs.Safety.Progress

/-! # Safe expressions

Every expression runs to its end and leaves the stacks as they were, whatever its tokens are. The
precedence of what is inside an expression is never the weakest one, at which even the end of
the input would go on with an expression.
-/

set_option synthInstance.maxSize 4096

namespace LoxCompiler.Compile

variable {β : Type} {w : Width β} {n : Nat}

section Constructs

variable {operand : Precedence → Compile w.settings Unit} {budget : Nat}
  [∀ level, Orderly (operand level)]

instance (canAssign : Bool) : Safe n (acceptAssign canAssign : Compile w.settings Bool) := by
  unfold acceptAssign
  infer_instance

instance : Safe n (numberLiteral : Compile w.settings Unit) := by
  unfold numberLiteral
  exact .bind fun token => by split <;> infer_instance

instance : Safe n (stringLiteral : Compile w.settings Unit) := by
  unfold stringLiteral
  exact .bind fun token => by split <;> infer_instance

instance : Safe n (wordLiteral : Compile w.settings Unit) := by
  unfold wordLiteral
  exact .bind fun token => by split <;> infer_instance

instance : Safe n (receiver : Compile w.settings Unit) := by unfold receiver; infer_instance

variable (hoperand : ∀ level : Precedence, level ≠ .none → Safe n (operand level))
include hoperand

theorem safe_grouping : Safe n (grouping operand) := by
  have := hoperand .assignment nofun
  unfold grouping
  infer_instance

theorem safe_unary : Safe n (unary operand) := by
  have := hoperand .unary nofun
  unfold unary
  infer_instance

theorem safe_binary : Safe n (binary operand) := by
  have hnext : ∀ level : Precedence, level.next ≠ .none := by
    intro level
    cases level <;> exact nofun
  have := fun level : Precedence => hoperand level.next (hnext level)
  unfold binary
  infer_instance

theorem safe_conjunction : Safe n (conjunction operand) := by
  have := hoperand .and nofun
  refine .of_leads fun σ => (leads_emitJump _).bind ?_
  rintro skip _ ⟨hskip, rfl⟩
  exact .safe fun _ => .safe fun _ => leads_patchJump σ.jumps σ.size List.mem_cons_self (Nat.le_refl _)
    (List.erase_cons_head ..) (Nat.le_add_right_of_le hskip)

theorem safe_disjunction : Safe n (disjunction operand) := by
  have := hoperand .or nofun
  refine .of_leads fun σ => (leads_emitJump _).bind ?_
  rintro next _ ⟨hnext, rfl⟩
  refine (leads_emitJump _).bind ?_
  rintro skip _ ⟨hskip, rfl⟩
  have hne : skip ≠ next := by
    dsimp only at hskip
    omega
  refine (leads_patchJump (skip :: σ.jumps) (skip + 2) (by simp) ?_ ?_
    (Nat.le_refl _)).next fun _ => ?_
  · dsimp only at hskip ⊢
    omega
  · rw [List.erase_cons_tail (by simpa using hne), List.erase_cons_head]
  · refine .safe fun _ => .safe fun _ => leads_patchJump σ.jumps σ.size List.mem_cons_self (Nat.le_refl _)
      (List.erase_cons_head ..) ?_
    dsimp only at hskip ⊢
    omega

theorem safe_named (canAssign : Bool) : Safe n (named operand canAssign) := by
  have := hoperand .assignment nofun
  unfold named
  exact .bind fun token => by split <;> infer_instance

theorem safe_argumentList (hn : n ≤ budget) : Safe n (argumentList operand budget) := by
  have := hoperand .assignment nofun
  unfold argumentList
  have := fun count => safe_separated (n := n) (fun count => do
    operand .assignment
    measure (.arguments (count + 1))
    if w.settings.limits.arguments = some count then report .tooManyArguments) count hn
  infer_instance

theorem safe_call (hn : n ≤ budget) : Safe n (call operand budget) := by
  have := safe_argumentList hoperand hn
  unfold call
  infer_instance

theorem safe_property (hn : n ≤ budget) (canAssign : Bool) :
    Safe n (property operand budget canAssign) := by
  have := hoperand .assignment nofun
  have := safe_argumentList hoperand hn
  unfold property
  infer_instance

theorem safe_superclass (hn : n ≤ budget) : Safe n (superclass operand budget) := by
  have := safe_argumentList hoperand hn
  unfold superclass
  dsimp only
  infer_instance

theorem safe_lead (hn : n ≤ budget) (canAssign : Bool) (leading : Leading) :
    Safe n (lead operand budget canAssign leading) := by
  cases leading with
  | grouping => exact safe_grouping hoperand
  | unary => exact safe_unary hoperand
  | number => exact inferInstanceAs (Safe n numberLiteral)
  | string => exact inferInstanceAs (Safe n stringLiteral)
  | literal => exact inferInstanceAs (Safe n wordLiteral)
  | name => exact safe_named hoperand canAssign
  | receiver => exact inferInstanceAs (Safe n receiver)
  | superclass => exact safe_superclass hoperand hn

theorem safe_extend (hn : n ≤ budget) (canAssign : Bool) (continuing : Continuing) :
    Safe n (extend operand budget canAssign continuing) := by
  cases continuing with
  | binary => exact safe_binary hoperand
  | and => exact safe_conjunction hoperand
  | or => exact safe_disjunction hoperand
  | call => exact safe_call hoperand hn
  | property => exact safe_property hoperand hn canAssign

theorem safe_operator (hn : n ≤ budget) (level : Precedence) :
    Safe n (operator operand budget level) := by
  have := safe_extend hoperand hn (decide (level ≤ .assignment))
  unfold operator
  exact .bind fun _ => .bind fun token => by split <;> infer_instance

omit hoperand in
instance (level : Precedence) : Progress IsToken (operator operand budget level) := by
  unfold operator
  exact .first_of fun _ => .bind fun token => by split <;> infer_instance

/-- The operators of a level end, since each of them is a token: at the end of the input there
is none. -/
theorem safe_operators (hn : n ≤ budget) {level : Precedence} (hlevel : level ≠ .none) :
    Safe n (operators operand budget level) := by
  have := safe_operator hoperand hn level
  have : Safe n (atOperator level : Compile w.settings Bool) := by
    unfold atOperator
    infer_instance
  have hloop : Safe n (repeatWhile (atOperator level) (operator operand budget level) budget) := by
    refine safe_repeatWhile ?_ hn
    intro s t u hcondition hstep
    have hanswer : Except.ok (decide (level ≤ (Rule.ofKind s.reader.current.kind).precedence), s) =
        (.ok (true, t) : Except Fault (Bool × Session β)) := hcondition
    cases hlevel' : decide (level ≤ (Rule.ofKind s.reader.current.kind).precedence) with
    | false =>
        rw [hlevel'] at hanswer
        cases hanswer
    | true =>
        rw [hlevel'] at hanswer
        cases hanswer
        refine Progress.takes (P := IsToken) hstep fun hend => hlevel ?_
        rw [hend] at hlevel'
        cases level <;> first | rfl | cases hlevel'
  unfold operators
  infer_instance

/-- An expression takes its first token, and then there is less to read for what is inside it. -/
theorem safe_expressionStep {level : Precedence} (hlevel : level ≠ .none) (hn : n < budget) :
    Safe (n + 1) (expressionStep operand budget level) where
  runs {σ s} hs hremaining := by
    have hadvance : (advance : Compile w.settings Unit).run s =
      .ok ((), { s with reader := s.reader.advance }) := rfl
    have ht : Session.Shaped σ { s with reader := s.reader.advance } := hs.congr rfl rfl
    have hprevious : s.reader.advance.previous = s.reader.current := Reader.previous_advance _
    have hle := Reader.remaining_advance_le s.reader
    rw [expressionStep_eq]
    rw [run_bind_of_ok (show (startExpression : Compile w.settings Unit).run s = .ok ((), s) from rfl),
      run_bind_of_ok hadvance,
      run_bind_of_ok (show (previous : Compile w.settings _).run _ = .ok (_, _) from rfl)]
    dsimp only
    rw [hprevious, expressionFrom]
    cases hleading : (Rule.ofKind s.reader.current.kind).leading with
    | none => exact Safe.runs (m := report .expectedExpression) (n := n + 1) ht (by dsimp only; omega)
    | some leading =>
        have hlt : s.reader.advance.remaining < s.reader.remaining := by
          refine Reader.remaining_advance_lt fun hend => ?_
          rw [hend] at hleading
          cases hleading
        have hle : n ≤ budget := Nat.le_of_lt hn
        have := safe_lead hoperand hle (decide (level ≤ .assignment)) leading
        have := safe_operators hoperand hle hlevel
        exact Safe.runs (n := n) (m := do
          lead operand budget (decide (level ≤ .assignment)) leading
          operators operand budget level) ht (by dsimp only; omega)

end Constructs

/-- Expressions are safe, if the tokens that are left are less than what they may nest. -/
theorem safe_expressionAt (level : Precedence) (hlevel : level ≠ .none) :
    Safe n (expressionAt n level : Compile w.settings Unit) := by
  induction n generalizing level with
  | zero => exact ⟨fun _ h => absurd h (Nat.not_lt_zero _)⟩
  | succ n ih => exact safe_expressionStep ih hlevel (Nat.lt_succ_self n)

theorem safe_expression {budget : Nat} (hn : n ≤ budget) :
    Safe n (expression budget : Compile w.settings Unit) :=
  (safe_expressionAt .assignment nofun).mono hn

/-- An expression takes a token, unless there is none. -/
instance (budget : Nat) : Progress IsToken (expression budget : Compile w.settings Unit) := by
  cases budget with
  | zero => exact ⟨fun h => nomatch h⟩
  | succ budget =>
      have hstep : Progress IsToken (expressionStep (expressionAt budget) (budget + 1)
          .assignment : Compile w.settings Unit) := by
        rw [expressionStep_eq]
        exact .rest (fun _ h => h) fun _ => .first
      exact hstep

end LoxCompiler.Compile
