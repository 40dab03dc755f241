import LoxCompiler.Proofs.Parsing.Step

/-! # Renderings of a tree

A tree can be written with parentheses around any of its parts. Where precedence and associativity
ask for them they have to be there, and everywhere else they may be there as often as one likes.
They leave no trace: trees that differ in parentheses only are the same tree.
-/

namespace LoxCompiler

mutual

/-- A tree without its parentheses. -/
def Expression.ungroup : Expression → Expression
  | .literal value => .literal value
  | .variable name => .variable name
  | .assign name value => .assign name value.ungroup
  | .receiver => .receiver
  | .superGet method => .superGet method
  | .superCall method arguments => .superCall method (Expression.ungroupEach arguments)
  | .group inner => inner.ungroup
  | .unary op operand => .unary op operand.ungroup
  | .binary op left right => .binary op left.ungroup right.ungroup
  | .and left right => .and left.ungroup right.ungroup
  | .or left right => .or left.ungroup right.ungroup
  | .call callee arguments => .call callee.ungroup (Expression.ungroupEach arguments)
  | .get object property => .get object.ungroup property
  | .set object property value => .set object.ungroup property value.ungroup
  | .invoke object method arguments =>
      .invoke object.ungroup method (Expression.ungroupEach arguments)

/-- Some trees without their parentheses. -/
def Expression.ungroupEach : List Expression → List Expression
  | [] => []
  | e :: es => e.ungroup :: Expression.ungroupEach es

end

mutual

/-- Whether all operators of a tree are operators of their kind. -/
def Expression.Proper : Expression → Prop
  | .literal _ | .variable _ | .receiver | .superGet _ => True
  | .assign _ value => value.Proper
  | .superCall _ arguments => Expression.ProperEach arguments
  | .group inner => inner.Proper
  | .unary op operand => (Rule.ofOperator op).leading = some .unary ∧ operand.Proper
  | .binary op left right =>
      (Rule.ofOperator op).continuing = some .binary ∧ left.Proper ∧ right.Proper
  | .and left right | .or left right => left.Proper ∧ right.Proper
  | .call callee arguments => callee.Proper ∧ Expression.ProperEach arguments
  | .get object _ => object.Proper
  | .set object _ value => object.Proper ∧ value.Proper
  | .invoke object _ arguments => object.Proper ∧ Expression.ProperEach arguments

/-- Whether all operators of some trees are operators of their kind. -/
def Expression.ProperEach : List Expression → Prop
  | [] => True
  | e :: es => e.Proper ∧ Expression.ProperEach es

end

namespace Expression

/-- The tokens are a tree with the parentheses that it needs, and perhaps with more. -/
def Renders (e : Expression) (ts : List Kind) : Prop :=
  ∃ written : Expression, written.ungroup = e.ungroup ∧ written.Spelled .assignment ts

theorem length_ungroupEach (es : List Expression) : (ungroupEach es).length = es.length := by
  induction es with
  | nil => rfl
  | cons e es ih => simp [ungroupEach, ih]

/-- A tree written in parentheses may stand everywhere. -/
theorem Renders.grouped {e : Expression} {ts : List Kind} (h : e.Renders ts) (level : Precedence) :
    ∃ (inner : Expression) (us : List Kind),
      inner.ungroup = e.ungroup ∧ (group inner).Spelled level us := by
  obtain ⟨written, hsame, hwritten⟩ := h
  have hprimary : level ≤ .primary := by cases level <;> decide
  exact ⟨written, _, hsame, (Spelled.group hwritten).of_le hprimary⟩

mutual

/-- Every tree can be written. -/
theorem Proper.renders : ∀ {e : Expression}, e.Proper → ∃ ts, e.Renders ts
  | .literal _, _ => ⟨_, _, rfl, Spelled.literal.of_le (by decide)⟩
  | .variable _, _ => ⟨_, _, rfl, Spelled.variable.of_le (by decide)⟩
  | .receiver, _ => ⟨_, _, rfl, Spelled.receiver.of_le (by decide)⟩
  | .superGet _, _ => ⟨_, _, rfl, Spelled.superGet.of_le (by decide)⟩
  | .assign name value, h => by
      obtain ⟨_, hvalue⟩ := Proper.renders (e := value) h
      obtain ⟨v, _, hv, hspelled⟩ := hvalue.grouped .assignment
      exact ⟨_, .assign name (.group v), by simp [ungroup, hv], .assign hspelled⟩
  | .superCall method arguments, h => by
      obtain ⟨es, _, hes, hspelled⟩ := ProperEach.renders (show ProperEach arguments from h)
      exact ⟨_, .superCall method es, by simp [ungroup, hes],
        (Spelled.superCall hspelled).of_le (by decide)⟩
  | .group inner, h => by
      obtain ⟨_, hinner⟩ := Proper.renders (e := inner) h
      obtain ⟨i, _, hi, hspelled⟩ := hinner.grouped .assignment
      exact ⟨_, .group i, by simp [ungroup, hi], hspelled⟩
  | .unary op operand, ⟨hunary, h⟩ => by
      obtain ⟨_, hoperand⟩ := Proper.renders (e := operand) h
      obtain ⟨o, _, ho, hspelled⟩ := hoperand.grouped .unary
      exact ⟨_, .unary op (.group o), by simp [ungroup, ho],
        (Spelled.unary hunary hspelled).of_le (by decide)⟩
  | .binary op left right, ⟨hbinary, hl, hr⟩ => by
      obtain ⟨_, hleft⟩ := Proper.renders (e := left) hl
      obtain ⟨_, hright⟩ := Proper.renders (e := right) hr
      obtain ⟨l, _, hl, hleft⟩ := hleft.grouped (Rule.ofOperator op).precedence
      obtain ⟨r, _, hr, hright⟩ := hright.grouped (Rule.ofOperator op).precedence.next
      have hweak : .assignment ≤ (Rule.ofOperator op).precedence :=
        Precedence.le_trans (by decide) (Rule.binary_level hbinary).2.1
      exact ⟨_, .binary op (.group l) (.group r), by simp [ungroup, hl, hr],
        (Spelled.binary hbinary hleft hright).of_le hweak⟩
  | .and left right, ⟨hl, hr⟩ => by
      obtain ⟨_, hleft⟩ := Proper.renders (e := left) hl
      obtain ⟨_, hright⟩ := Proper.renders (e := right) hr
      obtain ⟨l, _, hl, hleft⟩ := hleft.grouped .equality
      obtain ⟨r, _, hr, hright⟩ := hright.grouped .and
      exact ⟨_, .and (.group l) (.group r), by simp [ungroup, hl, hr],
        (Spelled.and hleft hright).of_le (by decide)⟩
  | .or left right, ⟨hl, hr⟩ => by
      obtain ⟨_, hleft⟩ := Proper.renders (e := left) hl
      obtain ⟨_, hright⟩ := Proper.renders (e := right) hr
      obtain ⟨l, _, hl, hleft⟩ := hleft.grouped .and
      obtain ⟨r, _, hr, hright⟩ := hright.grouped .or
      exact ⟨_, .or (.group l) (.group r), by simp [ungroup, hl, hr],
        (Spelled.or hleft hright).of_le (by decide)⟩
  | .call callee arguments, ⟨hf, hes⟩ => by
      obtain ⟨_, hcallee⟩ := Proper.renders (e := callee) hf
      obtain ⟨f, _, hf, hcallee⟩ := hcallee.grouped .call
      obtain ⟨es, _, hes, harguments⟩ := ProperEach.renders (show ProperEach arguments from hes)
      exact ⟨_, .call (.group f) es, by simp [ungroup, hf, hes],
        (Spelled.call rfl hcallee harguments).of_le (by decide)⟩
  | .get object property, h => by
      obtain ⟨_, hobject⟩ := Proper.renders (e := object) h
      obtain ⟨o, _, ho, hspelled⟩ := hobject.grouped .call
      exact ⟨_, .get (.group o) property, by simp [ungroup, ho],
        (Spelled.get hspelled).of_le (by decide)⟩
  | .set object property value, ⟨ho, hv⟩ => by
      obtain ⟨_, hobject⟩ := Proper.renders (e := object) ho
      obtain ⟨_, hvalue⟩ := Proper.renders (e := value) hv
      obtain ⟨o, _, ho, hobject⟩ := hobject.grouped .call
      obtain ⟨v, _, hv, hvalue⟩ := hvalue.grouped .assignment
      exact ⟨_, .set (.group o) property (.group v), by simp [ungroup, ho, hv], .set hobject hvalue⟩
  | .invoke object method arguments, ⟨ho, hes⟩ => by
      obtain ⟨_, hobject⟩ := Proper.renders (e := object) ho
      obtain ⟨o, _, ho, hobject⟩ := hobject.grouped .call
      obtain ⟨es, _, hes, harguments⟩ := ProperEach.renders (show ProperEach arguments from hes)
      exact ⟨_, .invoke (.group o) method es, by simp [ungroup, ho, hes],
        (Spelled.invoke hobject harguments).of_le (by decide)⟩

/-- All arguments can be written. -/
theorem ProperEach.renders : ∀ {es : List Expression}, ProperEach es →
    ∃ (written : List Expression) (ts : List Kind),
      ungroupEach written = ungroupEach es ∧ SpelledEach written ts
  | [], _ => ⟨[], [], rfl, .none⟩
  | e :: es, ⟨he, hes⟩ => by
      obtain ⟨ts, v, hv, hspelled⟩ := Proper.renders he
      obtain ⟨written, us, hsame, hwritten⟩ := ProperEach.renders hes
      cases written with
      | nil => exact ⟨[v], ts, by simp [ungroupEach, hv, ← hsame], .last hspelled⟩
      | cons u more =>
          exact ⟨v :: u :: more, _, by simp [ungroupEach, hv, ← hsame], .more hspelled hwritten⟩

end

end Expression

end LoxCompiler
