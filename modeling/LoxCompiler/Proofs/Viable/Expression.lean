import LoxCompiler.Proofs.Parsing.Tokens
import LoxCompiler.Proofs.Viable.Follow

/-! # Expressions follow their goals

What stands inside an expression is given: it follows its goal, and goes on as far as it can. Then
the expression does so too. By induction on the budget, every expression does.
-/

set_option synthInstance.maxSize 4096

namespace LoxCompiler

open Reader

variable {tokens : List (Token Symbol)} {gs : List Goal} {level own : Precedence} {r : Reader}

/-- An expression of some level ends before a token: the token is no operator of the level, and no
equals sign if something may be assigned to. -/
def Ended (level : Precedence) (k : Kind) : Prop :=
  ¬ level ≤ (Rule.ofKind k).precedence ∧ (level ≤ .assignment → k ≠ .operator .assign)

/-- A part of an expression was read. More of it may come, or it has to end here. Where a method of
the superclass is left before its arguments, they are the operator that comes next. -/
def Pending (tokens : List (Token Symbol)) (level : Precedence) (gs : List Goal) (r : Reader) :
    Prop :=
  (∃ own, Faces tokens (.operators level own :: gs) r ∧
    ¬ own.edge ≤ (Rule.ofKind r.current.kind).precedence) ∨
  (Faces tokens gs r ∧ Ended level r.current.kind) ∨
  (Faces tokens (.token .openParen :: .arguments :: .operators level .call :: gs) r ∧
    r.current.kind = .openParen ∧ level ≤ .call)

namespace Pending

theorem of_primary (h : Faces tokens (.operators level .primary :: gs) r) :
    Pending tokens level gs r :=
  .inl ⟨.primary, h, Rule.not_primary_le _⟩

theorem of_call (h : Faces tokens (.operators level .call :: gs) r) : Pending tokens level gs r :=
  .inl ⟨.call, h, Rule.not_primary_le _⟩

/-- After an operand, the operators of its own level are no more to come. -/
theorem of_operand
    (h : Faces tokens (.operators level own :: gs) r ∧ Ended own.edge r.current.kind) :
    Pending tokens level gs r :=
  .inl ⟨own, h.1, h.2.1⟩

/-- After an assigned value, nothing is to come. -/
theorem of_value (hlevel : .assignment ≤ level)
    (h : Faces tokens gs r ∧ Ended .assignment r.current.kind) : Pending tokens level gs r := by
  refine .inr (.inl ⟨h.1, fun hweak => h.2.1 ?_, fun _ => h.2.2 (Precedence.le_refl _)⟩)
  exact Precedence.le_trans hlevel hweak

theorem of_superclass (hcall : level ≤ .call)
    (h : Faces tokens (.afterSuper :: .operators level .call :: gs) r) :
    Pending tokens level gs r := by
  by_cases hparen : r.current.kind = .openParen
  · exact .inr (.inr ⟨h.refine (by rw [Goal.refine, if_pos hparen]), hparen, hcall⟩)
  · exact .of_call (h.skip (by rw [Goal.refine, if_neg hparen]))

/-- An operator of the level is taken. -/
theorem take (hlevel : .assignment ≤ level) (h : Pending tokens level gs r)
    (hstrong : level ≤ (Rule.ofKind r.current.kind).precedence) :
    ∃ continuing, (Rule.ofKind r.current.kind).continuing = some continuing ∧
      Faces tokens
        (Goal.extend level (Rule.ofKind r.current.kind).precedence continuing ++ gs) r.advance := by
  rcases h with ⟨own, hfaces, hown⟩ | ⟨-, hended⟩ | ⟨hfaces, hparen, -⟩
  · have hnone : (Rule.ofKind r.current.kind).precedence ≠ .none := by
      intro hnone
      rw [hnone] at hstrong
      exact absurd (Precedence.le_trans hlevel hstrong) (by decide)
    obtain ⟨continuing, hcontinuing⟩ := Rule.continuing_of_precedence hnone
    have hnew : (Goal.operators level own).refine r.current.kind =
        some (.token r.current.kind ::
          Goal.extend level (Rule.ofKind r.current.kind).precedence continuing) := by
      rw [Goal.refine, if_pos hstrong, if_neg hown, hcontinuing]
      rfl
    refine ⟨continuing, hcontinuing, (hfaces.refine hnew).take rfl fun hend => hnone ?_⟩
    rw [hend]
    rfl
  · exact absurd hstrong hended.1
  · rw [hparen]
    exact ⟨.call, rfl, hfaces.take hparen (by simp)⟩

/-- An equals sign after an operator offends, where something may be assigned to. -/
theorem offends (h : Pending tokens level gs r)
    (hweak : ¬ level ≤ (Rule.ofKind r.current.kind).precedence)
    (hassign : r.current.kind = .operator .assign ∧ level ≤ .assignment) :
    Offends tokens r.current := by
  rcases h with ⟨own, hfaces, -⟩ | ⟨-, hended⟩ | ⟨-, hparen, -⟩
  · exact hfaces.offends (by simp) (by rw [Goal.refine, if_neg hweak, if_pos hassign])
  · exact absurd hassign.1 (hended.2 hassign.2)
  · cases hparen.symm.trans hassign.1

theorem ended (h : Pending tokens level gs r)
    (hweak : ¬ level ≤ (Rule.ofKind r.current.kind).precedence)
    (hassign : ¬ (r.current.kind = .operator .assign ∧ level ≤ .assignment)) :
    Faces tokens gs r ∧ Ended level r.current.kind := by
  rcases h with ⟨own, hfaces, -⟩ | hended | ⟨-, hparen, hcall⟩
  · refine ⟨hfaces.skip ?_, hweak, fun hlevel hkind => hassign ⟨hkind, hlevel⟩⟩
    rw [Goal.refine, if_neg hweak, if_neg hassign]
  · exact hended
  · rw [hparen] at hweak
    exact absurd hcall hweak

end Pending

namespace Compile

variable {β : Type} {w : Width β}

instance : Still (numberLiteral : Compile w.settings Unit) := by
  unfold numberLiteral emitConstant
  exact .bind fun token => by split <;> infer_instance

instance : Still (stringLiteral : Compile w.settings Unit) := by
  unfold stringLiteral emitConstant
  exact .bind fun token => by split <;> infer_instance

instance : Still (wordLiteral : Compile w.settings Unit) := by
  unfold wordLiteral
  exact .bind fun token => by split <;> infer_instance

instance : Still (startExpression : Compile w.settings Unit) :=
  still_of_run fun h => by cases h; rfl

theorem follows_acceptAssign {P : Reader → Prop} {R : Bool → Reader → Prop}
    (hyes : ∀ r, P r → r.current.kind = .operator .assign ∧ level ≤ .assignment → R true r.advance)
    (hno : ∀ r, P r → ¬ (r.current.kind = .operator .assign ∧ level ≤ .assignment) → R false r) :
    Follows tokens P (acceptAssign (decide (level ≤ .assignment)) : Compile w.settings Bool) R := by
  unfold acceptAssign
  by_cases hlevel : level ≤ .assignment
  · rw [if_pos (by simpa using hlevel)]
    exact .accept (fun r hr hkind => hyes r hr ⟨hkind, hlevel⟩)
      fun r hr hkind => hno r hr fun hassign => hkind hassign.1
  · rw [if_neg (by simpa using hlevel)]
    exact .pure_of fun r hr => hno r hr fun hassign => hlevel hassign.2

/-- A choice by whether something is assigned to what was read. -/
theorem follows_assignment {P : Reader → Prop} {R : Unit → Reader → Prop} {gs' : List Goal}
    {yes no : Compile w.settings Unit} [Orderly yes] [Orderly no]
    (htake : ∀ r, P r → r.current.kind = .operator .assign ∧ level ≤ .assignment →
      Faces tokens (.token (.operator .assign) :: gs') r)
    (hyes : Follows tokens (Faces tokens gs') yes R)
    (hno : Follows tokens
      (fun r => P r ∧ ¬ (r.current.kind = .operator .assign ∧ level ≤ .assignment)) no R) :
    Follows tokens P (do if ← acceptAssign (decide (level ≤ .assignment)) then yes else no) R := by
  refine (follows_acceptAssign (R := fun found r => if found then Faces tokens gs' r
    else P r ∧ ¬ (r.current.kind = .operator .assign ∧ level ≤ .assignment)) ?_ ?_).bind
    fun found => ?_
  · exact fun r hr hassign => (htake r hr hassign).take hassign.1 (by simp)
  · exact fun r hr hassign => ⟨hr, hassign⟩
  · cases found with
    | true => exact hyes
    | false => exact hno

/-- Expressions inside another one follow their goals, and go on as far as they can. -/
def FollowsOperand (tokens : List (Token Symbol)) (operand : Precedence → Compile w.settings Unit) :
    Prop :=
  ∀ level gs, .assignment ≤ level → level ≤ .call →
    Follows tokens (Faces tokens (.expression level :: gs)) (operand level) fun _ r =>
      Faces tokens gs r ∧ Ended level r.current.kind

section Constructs

variable {operand : Precedence → Compile w.settings Unit} [∀ level, Orderly (operand level)]
  (hoperand : FollowsOperand tokens operand) {budget : Nat}
include hoperand

omit [∀ level, Orderly (operand level)] in
theorem follows_value : Follows tokens (Faces tokens (.expression .assignment :: gs))
    (operand .assignment) fun _ => Faces tokens gs :=
  (hoperand .assignment gs (by decide) (by decide)).mono (fun _ hr => hr) fun _ _ hr => hr.1

omit [∀ level, Orderly (operand level)] in
theorem follows_grouping :
    Follows tokens (Faces tokens (Goal.lead level .grouping ++ gs)) (grouping operand) fun _ =>
      Pending tokens level gs := by
  unfold grouping
  refine (follows_value hoperand).bind fun _ => ?_
  exact (Follows.consume (by simp)).mono (fun _ hr => hr) fun _ _ => .of_primary

theorem follows_unary :
    Follows tokens (Faces tokens (Goal.lead level .unary ++ gs)) (unary operand) fun _ =>
      Pending tokens level gs := by
  unfold unary
  refine .after fun token => .before ?_
  exact (hoperand .unary _ (by decide) (by decide)).mono (fun _ hr => hr) fun _ _ => .of_operand

theorem follows_argumentList :
    Follows tokens (Faces tokens (.arguments :: gs)) (argumentList operand budget) fun _ =>
      Faces tokens gs := by
  have hclose (count : Nat) : Follows tokens (Faces tokens (.token .closeParen :: gs))
      (do
        consume .closeParen "Expect ')' after arguments."
        return Limits.clamp w.settings.limits.arguments count : Compile w.settings Nat)
      fun _ => Faces tokens gs :=
    .before (.consume (by simp))
  unfold argumentList
  dsimp only
  refine .ifCheck ?_ ?_
  · refine .bind (.pure_of fun r hr => ?_) hclose
    exact hr.1.refine (by rw [Goal.refine, if_pos hr.2])
  · refine .of (P := Faces tokens (.expression .assignment :: .moreArguments :: gs))
      (fun r hr => ?_) (.bind (.separated ?_ (fun _ => rfl) _ _) hclose)
    · exact hr.1.refine (by rw [Goal.refine, if_neg hr.2])
    · exact fun n => (follows_value hoperand).before

theorem follows_call :
    Follows tokens (Faces tokens (Goal.extend level own .call ++ gs)) (call operand budget) fun _ =>
      Pending tokens level gs := by
  unfold call
  exact .before ((follows_argumentList hoperand).mono (fun _ hr => hr) fun _ _ => .of_call)

omit [∀ level, Orderly (operand level)] in
theorem follows_assigned (hlevel : .assignment ≤ level) :
    Follows tokens (Faces tokens (.expression .assignment :: gs)) (operand .assignment) fun _ =>
      Pending tokens level gs :=
  (hoperand .assignment gs (by decide) (by decide)).mono (fun _ hr => hr) fun _ _ =>
    .of_value hlevel

theorem follows_named (hlevel : .assignment ≤ level) :
    Follows tokens (fun r => Faces tokens (Goal.lead level .name ++ gs) r ∧
        ∃ x, r.previous.kind = .identifier x)
      (named operand (decide (level ≤ .assignment))) fun _ => Pending tokens level gs := by
  have haccess (x : Symbol) : Follows tokens (Faces tokens (Goal.lead level .name ++ gs))
      (do
        let access ← access x
        if ← acceptAssign (decide (level ≤ .assignment)) then
          operand .assignment
          emitWith access.set access.operand
        else emitWith access.get access.operand : Compile w.settings Unit)
      fun _ => Pending tokens level gs := by
    refine .after fun access => follows_assignment (fun r hr hassign => ?_)
      (follows_assigned hoperand hlevel).before (.of (fun r hr => ?_) .still)
    · exact hr.refine (if_pos hassign)
    · exact .of_primary (hr.1.refine (if_neg hr.2))
  unfold named
  refine .previous fun token => ?_
  split
  · exact .of (fun _ hr => hr.1.1) (haccess _)
  · rename_i hother
    refine .of (P := fun _ => False) (fun r hr => ?_) ?_
    · obtain ⟨⟨-, x, hx⟩, rfl⟩ := hr
      exact hother x hx
    · exact .pure_of fun _ hr => hr.elim

theorem follows_property (hlevel : .assignment ≤ level) :
    Follows tokens (Faces tokens (Goal.extend level own .property ++ gs))
      (property operand budget (decide (level ≤ .assignment))) fun _ =>
      Pending tokens level gs := by
  unfold property
  refine Follows.consumeIdentifier.bind fun x => .after fun name =>
    follows_assignment (fun r hr hassign => ?_) (follows_assigned hoperand hlevel).before
      (.choice (.arguments :: .operators level .call :: gs) (by simp) (fun r hr hparen => ?_)
        ?_ (.of (fun r hr => ?_) .still))
  · exact hr.refine (if_pos hassign)
  · exact hr.1.refine (by rw [Goal.refine, if_neg hr.2, if_pos hparen])
  · exact .before ((follows_argumentList hoperand).mono (fun _ hr => hr) fun _ _ => .of_call)
  · exact .of_call (hr.1.1.refine (by rw [Goal.refine, if_neg hr.1.2, if_neg hr.2]))

theorem follows_superclass (hcall : level ≤ .call) :
    Follows tokens (Faces tokens (Goal.lead level .superclass ++ gs)) (superclass operand budget)
      fun _ => Pending tokens level gs := by
  unfold superclass
  dsimp only
  refine .after fun s => .after fun _ => .token (by simp)
    (Follows.consumeIdentifier.bind fun x => ?_)
  split
  · refine .after fun name => .after fun t => .after fun _ =>
      .choice (.arguments :: .operators level .call :: gs) (by simp) (fun r hr hparen => ?_)
        ?_ (.of (fun r hr => ?_) .still)
    · exact hr.refine (by rw [Goal.refine, if_pos hparen])
    · exact .before ((follows_argumentList hoperand).mono (fun _ hr => hr) fun _ _ => .of_call)
    · exact .of_call (hr.1.skip (by rw [Goal.refine, if_neg hr.2]))
  · -- Its arguments are left to the operators that follow.
    exact .pure_of fun _ => .of_superclass hcall

/-- What belongs to the token that starts an expression follows its goals. -/
theorem follows_lead (hlevel : .assignment ≤ level) (hcall : level ≤ .call) (leading : Leading) :
    Follows tokens (fun r => Faces tokens (Goal.lead level leading ++ gs) r ∧
        (Rule.ofKind r.previous.kind).leading = some leading)
      (lead operand budget (decide (level ≤ .assignment)) leading) fun _ =>
      Pending tokens level gs := by
  cases leading with
  | grouping => exact .of (fun _ hr => hr.1) (follows_grouping hoperand)
  | unary => exact .of (fun _ hr => hr.1) (follows_unary hoperand)
  | number => exact .of (fun _ hr => .of_primary hr.1) (.still (m := numberLiteral))
  | string => exact .of (fun _ hr => .of_primary hr.1) (.still (m := stringLiteral))
  | literal => exact .of (fun _ hr => .of_primary hr.1) (.still (m := wordLiteral))
  | receiver => exact .of (fun _ hr => .of_primary hr.1) (.still (m := receiver))
  | name => exact .of (fun _ hr => ⟨hr.1, Rule.of_leading hr.2⟩) (follows_named hoperand hlevel)
  | superclass => exact .of (fun _ hr => hr.1) (follows_superclass hoperand hcall)

omit [∀ level, Orderly (operand level)] in
theorem follows_operator_right (hown : .assignment ≤ own.edge) (hcall : own.edge ≤ .call) :
    Follows tokens (Faces tokens (.expression own.edge :: .operators level own :: gs))
      (operand own.edge) fun _ => Pending tokens level gs :=
  (hoperand _ _ hown hcall).mono (fun _ hr => hr) fun _ _ => .of_operand

/-- What belongs to an operator follows its goals. -/
theorem follows_extend (hlevel : .assignment ≤ level) {k : Kind} {continuing : Continuing}
    (hk : (Rule.ofKind k).continuing = some continuing) :
    Follows tokens (fun r => Faces tokens
        (Goal.extend level (Rule.ofKind k).precedence continuing ++ gs) r ∧ r.previous.kind = k)
      (extend operand budget (decide (level ≤ .assignment)) continuing) fun _ =>
      Pending tokens level gs := by
  have hkind := Rule.of_continuing hk
  cases continuing with
  | binary =>
      obtain ⟨op, rfl, hop⟩ := hkind
      obtain ⟨hedge, hequality, hfactor⟩ := Rule.binary_level hop
      have hright : Precedence.assignment ≤ (Rule.ofOperator op).precedence.edge :=
        Precedence.le_trans (by decide) (Precedence.le_trans hequality (Precedence.le_edge _))
      have hcall : (Rule.ofOperator op).precedence.edge ≤ .call := by
        revert hfactor
        cases (Rule.ofOperator op).precedence <;> decide
      change Follows _ _ (binary operand) _
      unfold binary
      refine .previous fun token => .of (P := fun r => Faces tokens
        (Goal.extend level (Rule.ofOperator op).precedence .binary ++ gs) r ∧
          token.kind = .operator op) (fun r hr => ⟨hr.1.1, hr.2 ▸ hr.1.2⟩)
        (.of_fact fun htoken => ?_)
      have hnext : (Rule.ofKind token.kind).precedence.next =
          (Rule.ofOperator op).precedence.edge := by
        rw [htoken, hedge]
        rfl
      dsimp only
      rw [hnext]
      exact .before (follows_operator_right hoperand hright hcall)
  | and =>
      obtain rfl : k = .operator .and := hkind
      change Follows _ _ (conjunction operand) _
      unfold conjunction
      exact .of (fun _ hr => hr.1) (.after fun _ => .after fun _ =>
        .before (follows_operator_right hoperand (by decide) (by decide)))
  | or =>
      obtain rfl : k = .operator .or := hkind
      change Follows _ _ (disjunction operand) _
      unfold disjunction
      exact .of (fun _ hr => hr.1) (.after fun _ => .after fun _ => .after fun _ => .after fun _ =>
        .before (follows_operator_right hoperand (by decide) (by decide)))
  | call => exact .of (fun _ hr => hr.1) (follows_call hoperand)
  | property => exact .of (fun _ hr => hr.1) (follows_property hoperand hlevel)

theorem follows_operator (hlevel : .assignment ≤ level) :
    Follows tokens (fun r => Pending tokens level gs r ∧
        level ≤ (Rule.ofKind r.current.kind).precedence)
      (operator operand budget level) fun _ => Pending tokens level gs := by
  unfold operator
  refine .take (S := fun r => ∃ continuing,
    (Rule.ofKind r.previous.kind).continuing = some continuing ∧ Faces tokens
      (Goal.extend level (Rule.ofKind r.previous.kind).precedence continuing ++ gs) r)
    (fun token => by split <;> infer_instance) (fun r hr => ?_) fun token => ?_
  · rw [previous_advance]
    exact hr.1.take hlevel hr.2
  · split
    · rename_i continuing hcontinuing
      refine .of (fun r hr => ?_) (follows_extend hoperand hlevel hcontinuing)
      obtain ⟨⟨continuing', hcontinuing', hfaces⟩, rfl⟩ := hr
      cases hcontinuing.symm.trans hcontinuing'
      exact ⟨hfaces, rfl⟩
    · rename_i hnone
      refine .of (P := fun _ => False) (fun r hr => ?_) (.pure_of fun _ hr => hr.elim)
      obtain ⟨⟨continuing, hcontinuing, -⟩, rfl⟩ := hr
      cases hnone.symm.trans hcontinuing

theorem follows_operators (hlevel : .assignment ≤ level) :
    Follows tokens (Pending tokens level gs) (operators operand budget level) fun _ r =>
      Faces tokens gs r ∧ Ended level r.current.kind := by
  have hcondition : Follows tokens (Pending tokens level gs)
      (atOperator level : Compile w.settings Bool) fun more r =>
        if more then Pending tokens level gs r ∧ level ≤ (Rule.ofKind r.current.kind).precedence
        else Pending tokens level gs r ∧ ¬ level ≤ (Rule.ofKind r.current.kind).precedence := by
    unfold atOperator
    refine .current fun token => .pure_of fun r hr => ?_
    obtain ⟨hpending, rfl⟩ := hr
    by_cases hstrong : level ≤ (Rule.ofKind r.current.kind).precedence
    · simpa [hstrong] using hpending
    · simpa [hstrong] using hpending
  unfold operators
  refine (Follows.repeatWhile hcondition (follows_operator hoperand hlevel) budget).bind fun _ =>
    (follows_acceptAssign (R := fun found r => if found then Offends tokens r.previous
      else Faces tokens gs r ∧ Ended level r.current.kind) ?_ ?_).bind fun found => ?_
  · intro r hr hassign
    show Offends tokens r.advance.previous
    rw [previous_advance]
    exact hr.1.offends hr.2 hassign
  · exact fun r hr hassign => hr.1.ended hr.2 hassign
  · cases found with
    | true => exact .report fun _ hr => hr
    | false => exact .pure_of fun _ hr => hr

theorem follows_expressionStep (hlevel : .assignment ≤ level) (hcall : level ≤ .call) :
    Follows tokens (Faces tokens (.expression level :: gs)) (expressionStep operand budget level)
      fun _ r => Faces tokens gs r ∧ Ended level r.current.kind := by
  rw [expressionStep_eq]
  refine .after fun _ => .take (S := fun r => match (Rule.ofKind r.previous.kind).leading with
    | some leading => Faces tokens (Goal.lead level leading ++ gs) r
    | none => Offends tokens r.previous) inferInstance (fun r hr => ?_) fun token => ?_
  · rw [previous_advance]
    split
    · rename_i leading hleading
      have hnew : (Goal.expression level).refine r.current.kind =
          some (.token r.current.kind :: Goal.lead level leading) := by
        rw [Goal.refine, hleading]
        rfl
      refine (hr.refine hnew).take rfl fun hend => ?_
      rw [hend] at hleading
      cases hleading
    · rename_i hnone
      exact hr.offends (by simp) (by rw [Goal.refine, hnone]; rfl)
  · unfold expressionFrom
    split
    · rename_i hnone
      refine .report fun r hr => ?_
      obtain ⟨hoffends, rfl⟩ := hr
      rwa [hnone] at hoffends
    · rename_i leading hleading
      refine .bind (.of (fun r hr => ?_) (follows_lead hoperand hlevel hcall leading)) fun _ =>
        follows_operators hoperand hlevel
      obtain ⟨hfaces, rfl⟩ := hr
      rw [hleading] at hfaces
      exact ⟨hfaces, hleading⟩

end Constructs

/-- Every expression follows its goal, and goes on as far as it can. -/
theorem follows_expressionAt (budget : Nat) :
    FollowsOperand tokens (expressionAt budget : Precedence → Compile w.settings Unit) := by
  induction budget with
  | zero => exact fun level gs _ _ => .throw
  | succ budget ih => exact fun level gs hlevel hcall => follows_expressionStep ih hlevel hcall

theorem follows_expression (budget : Nat) :
    Follows tokens (Faces tokens (.expression .assignment :: gs))
      (expression budget : Compile w.settings Unit) fun _ => Faces tokens gs :=
  follows_value (follows_expressionAt budget)

end Compile

end LoxCompiler
