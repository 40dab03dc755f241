import LoxCompiler.Proofs.Run.Still
import LoxCompiler.Proofs.Syntax.Compile

/-! # Steps of the expression parser

Which tokens start and continue expressions, and what a clean run of one level of the
expression parser consists of: a token that starts an expression, what belongs to that token,
and then operators until one binds too weakly.
-/

namespace LoxCompiler

namespace Precedence

theorem le_refl (a : Precedence) : a ≤ a := Nat.le_refl a.rank

theorem le_trans {a b c : Precedence} (hab : a ≤ b) (hbc : b ≤ c) : a ≤ c := Nat.le_trans hab hbc

/-- The weakest level whose operators cannot follow an expression of a level. An operator that
associates to the left can follow an expression of its own level, and one that associates to the
right cannot. -/
def edge : Precedence → Precedence
  | .none => .none
  | .assignment => .assignment
  | .or => .or
  | .and => .and
  | .equality => .comparison
  | .comparison => .term
  | .term => .factor
  | .factor => .unary
  | .unary => .unary
  | .call => .primary
  | .primary => .primary

theorem le_edge (a : Precedence) : a ≤ a.edge := by cases a <;> decide

theorem edge_mono {a b : Precedence} (h : a ≤ b) : a.edge ≤ b.edge := by
  revert h
  cases a <;> cases b <;> decide

theorem le_next (a : Precedence) : a ≤ a.next := by cases a <;> decide

theorem le_of_not_edge_le {a b : Precedence} (h : ¬ a.edge ≤ b) : b ≤ a := by
  revert h
  cases a <;> cases b <;> decide

/-- Only a conjunction or something stronger is followed by an operator weaker than it. -/
theorem and_le_of_not_edge_le {a : Precedence} (h : ¬ a.edge ≤ .or) : .and ≤ a := by
  revert h
  cases a <;> decide

theorem equality_le_of_not_edge_le {a : Precedence} (h : ¬ a.edge ≤ .and) : .equality ≤ a := by
  revert h
  cases a <;> decide

end Precedence

namespace Rule

/-- The tokens that start an expression in some way. -/
theorem of_leading {k : Kind} {leading : Leading} (h : (ofKind k).leading = some leading) :
    match leading with
    | .grouping => k = .openParen
    | .unary => ∃ op, k = .operator op ∧ (ofOperator op).leading = some .unary
    | .number => ∃ value, k = .literal (.number value)
    | .string => ∃ value, k = .literal (.string value)
    | .literal => k = .literal .nil ∨ ∃ value, k = .literal (.boolean value)
    | .name => ∃ name, k = .identifier name
    | .receiver => k = .keyword .thisWord
    | .superclass => k = .keyword .superWord := by
  cases k with
  | keyword word => cases word <;> cases h <;> rfl
  | operator op => cases op <;> cases h <;> exact ⟨_, rfl, rfl⟩
  | literal value =>
      cases value <;> cases h
      · exact .inl rfl
      · exact .inr ⟨_, rfl⟩
      · exact ⟨_, rfl⟩
      · exact ⟨_, rfl⟩
  | identifier name => cases h; exact ⟨_, rfl⟩
  | openParen => cases h; rfl
  | _ => cases h

/-- The tokens that continue an expression in some way, and how strongly they bind. -/
theorem of_continuing {k : Kind} {continuing : Continuing}
    (h : (ofKind k).continuing = some continuing) :
    match continuing with
    | .binary => ∃ op, k = .operator op ∧ (ofOperator op).continuing = some .binary
    | .and => k = .operator .and
    | .or => k = .operator .or
    | .call => k = .openParen
    | .property => k = .dot := by
  cases k with
  | keyword word => cases word <;> cases h
  | operator op =>
      cases op <;> cases h
      all_goals first | exact ⟨_, rfl, rfl⟩ | rfl
  | literal value => cases value <;> cases h
  | openParen => cases h; rfl
  | dot => cases h; rfl
  | _ => cases h

/-- A token that binds an expression before it continues it. -/
theorem continuing_of_precedence {k : Kind} (h : (ofKind k).precedence ≠ .none) :
    ∃ continuing, (ofKind k).continuing = some continuing := by
  cases k with
  | keyword word => cases word <;> exact (h rfl).elim
  | operator op =>
      cases op
      all_goals first | exact ⟨_, rfl⟩ | exact (h rfl).elim
  | literal value => cases value <;> exact (h rfl).elim
  | openParen => exact ⟨_, rfl⟩
  | dot => exact ⟨_, rfl⟩
  | _ => exact (h rfl).elim

theorem precedence_le_call (k : Kind) : (ofKind k).precedence ≤ .call := by
  have hnone : Precedence.none ≤ .call := by decide
  cases k with
  | keyword word => cases word <;> exact hnone
  | operator op => cases op <;> decide
  | literal value => cases value <;> exact hnone
  | openParen => decide
  | dot => decide
  | _ => exact hnone

theorem not_primary_le (k : Kind) : ¬ .primary ≤ (ofKind k).precedence := by
  intro h
  exact absurd (Nat.le_trans h (precedence_le_call k)) (by decide)

/-- A binary operator has a level of its own, at which it associates to the left. -/
theorem binary_level {op : Operator} (h : (ofOperator op).continuing = some .binary) :
    (ofOperator op).precedence.edge = (ofOperator op).precedence.next ∧
      .equality ≤ (ofOperator op).precedence ∧ (ofOperator op).precedence ≤ .factor := by
  revert h
  cases op <;> decide

end Rule

/-- Expressions of a level are expressions of every weaker level. -/
theorem Expression.Spelled.of_le {a b : Precedence} {e : Expression} {ts : List Kind}
    (h : Expression.Spelled b e ts) (hle : a ≤ b) : Expression.Spelled a e ts := by
  cases b <;> cases a <;> first | exact h | (exact absurd hle (by decide)) | skip
  all_goals repeat first | exact h | apply Expression.Spelled.weaken

namespace Compile

variable {β : Type} {w : Width β} {s t : Session β}

instance (count : Nat) : Still (checkArgument count : Compile w.settings Unit) := by
  unfold checkArgument
  infer_instance

instance (exit : Option Nat) : Still (leaveLoop exit : Compile w.settings Unit) := by
  unfold leaveLoop
  split <;> infer_instance

theorem cleanly_acceptAssign {canAssign : Bool} {a : Bool} :
    Cleanly (acceptAssign canAssign : Compile w.settings Bool) s a t ↔
      (a = true ∧ canAssign = true ∧
        Cleanly (expect (.operator .assign) : Compile w.settings Unit) s () t) ∨
      (a = false ∧ (canAssign = true → s.reader.current.kind ≠ .operator .assign) ∧
        s.reader.Quiet ∧ t = s) := by
  unfold acceptAssign
  cases canAssign with
  | false => simp [cleanly_pure, and_left_comm]
  | true => simp [cleanly_accept]

section Level

variable {operand : Precedence → Compile w.settings Unit} {budget : Nat} {level : Precedence}

theorem cleanly_atOperator {a : Bool} :
    Cleanly (atOperator level : Compile w.settings Bool) s a t ↔
      s.reader.Quiet ∧ a = decide (level ≤ (Rule.ofKind s.reader.current.kind).precedence) ∧
        t = s :=
  cleanly_look fun s => decide (level ≤ (Rule.ofKind s.reader.current.kind).precedence)

/-- Taking whatever token comes next and asking for it. -/
theorem cleanly_take {k : Token Symbol → Compile w.settings Unit}
    (horderly : ∀ token, Orderly (k token)) :
    Cleanly (do advance; k (← previous)) s () t ↔
      ∃ u, Cleanly (expect s.reader.current.kind : Compile w.settings Unit) s () u ∧
        u.reader.previous = s.reader.current ∧ Cleanly (k s.reader.current) u () t := by
  constructor
  · intro h
    obtain ⟨_, u, hadvance, hrest⟩ := h.of_bind
    obtain ⟨_, _, hprevious, hk⟩ := hrest.of_bind
    obtain ⟨_, rfl, rfl⟩ := cleanly_previous.mp hprevious
    obtain ⟨_, rfl, _⟩ := cleanly_advance.mp hadvance
    have hlast := Reader.previous_advance s.reader
    rw [hlast] at hk
    exact ⟨_, cleanly_expect.mpr ⟨rfl, hadvance⟩, hlast, hk⟩
  · rintro ⟨u, hexpect, hlast, hk⟩
    have hadvance := (cleanly_expect.mp hexpect).2
    refine hadvance.bind ((cleanly_previous.mpr ⟨hadvance.after, rfl, rfl⟩).bind ?_)
    rw [hlast]
    exact hk

variable [∀ level, Orderly (operand level)]

theorem cleanly_start :
    Cleanly (start operand budget level) s () t ↔
      ∃ u leading, Cleanly (expect s.reader.current.kind : Compile w.settings Unit) s () u ∧
        u.reader.previous = s.reader.current ∧
        (Rule.ofKind s.reader.current.kind).leading = some leading ∧
        Cleanly (lead operand budget (decide (level ≤ .assignment)) leading) u () t := by
  refine (cleanly_take fun token => by split <;> infer_instance).trans ⟨?_, ?_⟩
  · rintro ⟨u, hexpect, hlast, h⟩
    split at h
    · exact (not_cleanly_report h).elim
    · exact ⟨u, _, hexpect, hlast, ‹_›, h⟩
  · rintro ⟨u, leading, hexpect, hlast, hleading, h⟩
    refine ⟨u, hexpect, hlast, ?_⟩
    rw [hleading]
    exact h

theorem cleanly_operator {continuing : Continuing}
    (hcontinuing : (Rule.ofKind s.reader.current.kind).continuing = some continuing) :
    Cleanly (operator operand budget level) s () t ↔
      ∃ u, Cleanly (expect s.reader.current.kind : Compile w.settings Unit) s () u ∧
        u.reader.previous = s.reader.current ∧
        Cleanly (extend operand budget (decide (level ≤ .assignment)) continuing) u () t := by
  rw [operator, cleanly_take, hcontinuing]
  exact fun token => by split <;> infer_instance

theorem start_of_token (leading : Leading) {kind : Kind} {u : Session β}
    (hfirst : Cleanly (expect kind : Compile w.settings Unit) s () u)
    (hleading : (Rule.ofKind kind).leading = some leading)
    (h : Cleanly (lead operand budget (decide (level ≤ .assignment)) leading) u () t) :
    Cleanly (start operand budget level) s () t := by
  have hkind := hfirst.kind_of_expect
  subst hkind
  exact cleanly_start.mpr ⟨u, leading, hfirst, hfirst.last_of_expect, hleading, h⟩

theorem operator_of_token {kind : Kind} {continuing : Continuing} {u : Session β}
    (hfirst : Cleanly (expect kind : Compile w.settings Unit) s () u)
    (hcontinuing : (Rule.ofKind kind).continuing = some continuing)
    (h : Cleanly (extend operand budget (decide (level ≤ .assignment)) continuing) u () t) :
    Cleanly (operator operand budget level) s () t := by
  have hkind := hfirst.kind_of_expect
  subst hkind
  exact (cleanly_operator hcontinuing).mpr ⟨u, hfirst, hfirst.last_of_expect, h⟩

/-- A level of the parser: a token that starts an expression, and operators that do not end
before an equals sign. -/
theorem cleanly_expressionStep :
    Cleanly (expressionStep operand budget level) s () t ↔
      ∃ u, Cleanly (start operand budget level) s () u ∧
        Cleanly (repeatWhile (atOperator level) (operator operand budget level) budget) u () t ∧
        (level ≤ .assignment → t.reader.current.kind ≠ .operator .assign) := by
  have hstart {u : Session β} {a : Unit} :
      Cleanly (startExpression : Compile w.settings Unit) u a u ↔ u.reader.Quiet :=
    ⟨fun h => h.before, fun h => ⟨h, rfl, h⟩⟩
  have hend {u : Session β} : Cleanly (operators operand budget level) u () t ↔
      Cleanly (repeatWhile (atOperator level) (operator operand budget level) budget) u () t ∧
        (level ≤ .assignment → t.reader.current.kind ≠ .operator .assign) := by
    rw [operators, cleanly_bind]
    constructor
    · rintro ⟨_, v, hloop, hrest⟩
      obtain ⟨found, v', haccept, hif⟩ := hrest.of_bind
      rcases cleanly_acceptAssign.mp haccept with ⟨rfl, _⟩ | ⟨rfl, hnone, _, rfl⟩
      · exact (not_cleanly_report hif).elim
      · obtain ⟨_, _, rfl⟩ := cleanly_pure.mp hif
        exact ⟨hloop, fun hlevel => hnone (decide_eq_true hlevel)⟩
    · rintro ⟨hloop, hnone⟩
      refine ⟨_, _, hloop, Cleanly.bind (t := t) (a := false) ?_ ?_⟩
      · exact cleanly_acceptAssign.mpr
          (.inr ⟨rfl, fun hlevel => hnone (of_decide_eq_true hlevel), hloop.after, rfl⟩)
      · exact cleanly_pure.mpr ⟨hloop.after, rfl, rfl⟩
  rw [expressionStep_eq, cleanly_bind]
  constructor
  · rintro ⟨_, s', hs, h⟩
    obtain rfl : s' = s := by
      have hrun := hs.run
      cases hrun
      rfl
    obtain ⟨u, hexpect, hlast, h⟩ := (cleanly_take fun _ => inferInstance).mp h
    unfold expressionFrom at h
    split at h
    · exact (not_cleanly_report h).elim
    · obtain ⟨_, v, hlead, hrest⟩ := h.of_bind
      exact ⟨v, cleanly_start.mpr ⟨u, _, hexpect, hlast, ‹_›, hlead⟩, hend.mp hrest⟩
  · rintro ⟨v, h, hrest⟩
    obtain ⟨u, leading, hexpect, hlast, hleading, hlead⟩ := cleanly_start.mp h
    refine ⟨(), s, hstart.mpr hexpect.before,
      (cleanly_take fun _ => inferInstance).mpr ⟨u, hexpect, hlast, ?_⟩⟩
    rw [expressionFrom, hleading]
    exact hlead.bind (hend.mpr hrest)

end Level

end Compile

end LoxCompiler
