import LoxCompiler.Proofs.Syntax.Rename

/-! # Trees of tokens with other names

What is spelled by some tokens after their names were changed is a tree of these tokens whose names
were changed. Whether tokens spell something does not depend on their names.
-/

namespace LoxCompiler

section Tokens

variable {ρ : Symbol → Symbol} {us ts : List Kind}

/-- The first token is an identifier before its name is changed. -/
theorem exists_identifier_of_map {x : Symbol}
    (h : us.map (TokenKind.mapName ρ) = .identifier x :: ts) :
    ∃ y us', us = .identifier y :: us' ∧ ρ y = x ∧ us'.map (TokenKind.mapName ρ) = ts := by
  obtain ⟨k, us', rfl, hk, hrest⟩ := List.map_eq_cons_iff.mp h
  cases k with
  | identifier y => exact ⟨y, us', rfl, TokenKind.identifier.inj hk, hrest⟩
  | literal value => cases value <;> cases hk
  | _ => cases hk

/-- The first token is a literal before its name is changed. -/
theorem exists_literal_of_map {value : Literal Symbol}
    (h : us.map (TokenKind.mapName ρ) = .literal value :: ts) :
    ∃ value' us', us = .literal value' :: us' ∧ value'.rename ρ = value ∧
      us'.map (TokenKind.mapName ρ) = ts := by
  obtain ⟨k, us', rfl, hk, hrest⟩ := List.map_eq_cons_iff.mp h
  cases k with
  | literal value' =>
      rw [TokenKind.mapName_literal] at hk
      exact ⟨value', us', rfl, TokenKind.literal.inj hk, hrest⟩
  | _ => cases hk

/-- A token that is neither a name nor a literal. -/
def TokenKind.isPlain : Kind → Bool
  | .identifier _ | .literal _ => false
  | _ => true

/-- A plain token is the same before names are changed. -/
theorem exists_plain_of_map {k : Kind} (hk : k.isPlain = true)
    (h : us.map (TokenKind.mapName ρ) = k :: ts) :
    ∃ us', us = k :: us' ∧ us'.map (TokenKind.mapName ρ) = ts := by
  obtain ⟨k', us', rfl, heq, hrest⟩ := List.map_eq_cons_iff.mp h
  cases k' with
  | identifier y => cases heq ▸ hk
  | literal value => cases (TokenKind.mapName_literal ρ value).symm.trans heq ▸ hk
  | _ => exact ⟨us', by rw [← heq]; rfl, hrest⟩

end Tokens

variable {ρ : Symbol → Symbol}

mutual

/-- What the tokens spell with other names is a tree that they spell, with other names. -/
theorem Expression.Spelled.relabel : ∀ {level : Precedence} {e : Expression} {ts : List Kind},
    e.Spelled level ts → ∀ us : List Kind, us.map (TokenKind.mapName ρ) = ts →
      ∃ e' : Expression, e'.Spelled level us ∧ e'.rename ρ = e
  | _, _, _, .weaken he, us, h => by
      obtain ⟨e, he₁, rfl⟩ := he.relabel us h
      exact ⟨e, .weaken he₁, rfl⟩
  | _, _, _, .assign he, us, h => by
      obtain ⟨x, us₁, rfl, rfl, h₁⟩ := exists_identifier_of_map h
      obtain ⟨us₂, rfl, h₂⟩ := exists_plain_of_map rfl h₁
      obtain ⟨e, he₁, rfl⟩ := he.relabel us₂ h₂
      exact ⟨_, .assign he₁, by rw [Expression.rename]⟩
  | _, _, _, .set ho he, us, h => by
      obtain ⟨vs, us₁, rfl, hvs, h₁⟩ := List.map_eq_append_iff.mp h
      obtain ⟨us₂, rfl, h₂⟩ := exists_plain_of_map rfl h₁
      obtain ⟨p, us₃, rfl, rfl, h₃⟩ := exists_identifier_of_map h₂
      obtain ⟨us₄, rfl, h₄⟩ := exists_plain_of_map rfl h₃
      obtain ⟨o, ho₁, rfl⟩ := ho.relabel vs hvs
      obtain ⟨e, he₁, rfl⟩ := he.relabel us₄ h₄
      exact ⟨_, .set ho₁ he₁, by rw [Expression.rename]⟩
  | _, _, _, .or hl hr, us, h => by
      obtain ⟨vs, us₁, rfl, hvs, h₁⟩ := List.map_eq_append_iff.mp h
      obtain ⟨us₂, rfl, h₂⟩ := exists_plain_of_map rfl h₁
      obtain ⟨l, hl₁, rfl⟩ := hl.relabel vs hvs
      obtain ⟨r, hr₁, rfl⟩ := hr.relabel us₂ h₂
      exact ⟨_, .or hl₁ hr₁, by rw [Expression.rename]⟩
  | _, _, _, .and hl hr, us, h => by
      obtain ⟨vs, us₁, rfl, hvs, h₁⟩ := List.map_eq_append_iff.mp h
      obtain ⟨us₂, rfl, h₂⟩ := exists_plain_of_map rfl h₁
      obtain ⟨l, hl₁, rfl⟩ := hl.relabel vs hvs
      obtain ⟨r, hr₁, rfl⟩ := hr.relabel us₂ h₂
      exact ⟨_, .and hl₁ hr₁, by rw [Expression.rename]⟩
  | _, _, _, .binary hop hl hr, us, h => by
      obtain ⟨vs, us₁, rfl, hvs, h₁⟩ := List.map_eq_append_iff.mp h
      obtain ⟨us₂, rfl, h₂⟩ := exists_plain_of_map rfl h₁
      obtain ⟨l, hl₁, rfl⟩ := hl.relabel vs hvs
      obtain ⟨r, hr₁, rfl⟩ := hr.relabel us₂ h₂
      exact ⟨_, .binary hop hl₁ hr₁, by rw [Expression.rename]⟩
  | _, _, _, .unary hop he, us, h => by
      obtain ⟨us₁, rfl, h₁⟩ := exists_plain_of_map rfl h
      obtain ⟨e, he₁, rfl⟩ := he.relabel us₁ h₁
      exact ⟨_, .unary hop he₁, by rw [Expression.rename]⟩
  | _, _, _, .call hname hf hes, us, h => by
      obtain ⟨vs, us₁, rfl, hvs, h₁⟩ := List.map_eq_append_iff.mp h
      obtain ⟨vs₁, ws, rfl, hvs₁, hws⟩ := List.map_eq_append_iff.mp hvs
      obtain ⟨ws₁, rfl, hws₁⟩ := exists_plain_of_map rfl hws
      obtain ⟨us₂, rfl, h₂⟩ := exists_plain_of_map rfl h₁
      obtain rfl := List.map_eq_nil_iff.mp h₂
      obtain ⟨f, hf₁, rfl⟩ := hf.relabel vs₁ hvs₁
      obtain ⟨es, hes₁, rfl⟩ := hes.relabel ws₁ hws₁
      exact ⟨_, .call ((Expression.endsInName_rename ρ f).symm.trans hname) hf₁ hes₁,
        by rw [Expression.rename]⟩
  | _, _, _, .get ho, us, h => by
      obtain ⟨vs, us₁, rfl, hvs, h₁⟩ := List.map_eq_append_iff.mp h
      obtain ⟨us₂, rfl, h₂⟩ := exists_plain_of_map rfl h₁
      obtain ⟨p, us₃, rfl, rfl, h₃⟩ := exists_identifier_of_map h₂
      obtain rfl := List.map_eq_nil_iff.mp h₃
      obtain ⟨o, ho₁, rfl⟩ := ho.relabel vs hvs
      exact ⟨_, .get ho₁, by rw [Expression.rename]⟩
  | _, _, _, .invoke ho hes, us, h => by
      obtain ⟨vs, us₁, rfl, hvs, h₁⟩ := List.map_eq_append_iff.mp h
      obtain ⟨vs₁, ws, rfl, hvs₁, hws⟩ := List.map_eq_append_iff.mp hvs
      obtain ⟨ws₁, rfl, hws₁⟩ := exists_plain_of_map rfl hws
      obtain ⟨m, ws₂, rfl, rfl, hws₂⟩ := exists_identifier_of_map hws₁
      obtain ⟨ws₃, rfl, hws₃⟩ := exists_plain_of_map rfl hws₂
      obtain ⟨us₂, rfl, h₂⟩ := exists_plain_of_map rfl h₁
      obtain rfl := List.map_eq_nil_iff.mp h₂
      obtain ⟨o, ho₁, rfl⟩ := ho.relabel vs₁ hvs₁
      obtain ⟨es, hes₁, rfl⟩ := hes.relabel ws₃ hws₃
      exact ⟨_, .invoke ho₁ hes₁, by rw [Expression.rename]⟩
  | _, _, _, .superCall hes, us, h => by
      obtain ⟨vs, us₁, rfl, hvs, h₁⟩ := List.map_eq_append_iff.mp h
      obtain ⟨vs₁, rfl, hvs₁⟩ := exists_plain_of_map rfl hvs
      obtain ⟨vs₂, rfl, hvs₂⟩ := exists_plain_of_map rfl hvs₁
      obtain ⟨m, vs₃, rfl, rfl, hvs₃⟩ := exists_identifier_of_map hvs₂
      obtain ⟨vs₄, rfl, hvs₄⟩ := exists_plain_of_map rfl hvs₃
      obtain ⟨us₂, rfl, h₂⟩ := exists_plain_of_map rfl h₁
      obtain rfl := List.map_eq_nil_iff.mp h₂
      obtain ⟨es, hes₁, rfl⟩ := hes.relabel vs₄ hvs₄
      exact ⟨_, .superCall hes₁, by rw [Expression.rename]⟩
  | _, _, _, .superGet, us, h => by
      obtain ⟨us₁, rfl, h₁⟩ := exists_plain_of_map rfl h
      obtain ⟨us₂, rfl, h₂⟩ := exists_plain_of_map rfl h₁
      obtain ⟨m, us₃, rfl, rfl, h₃⟩ := exists_identifier_of_map h₂
      obtain rfl := List.map_eq_nil_iff.mp h₃
      exact ⟨_, .superGet, by rw [Expression.rename]⟩
  | _, _, _, .receiver, us, h => by
      obtain ⟨us₁, rfl, h₁⟩ := exists_plain_of_map rfl h
      obtain rfl := List.map_eq_nil_iff.mp h₁
      exact ⟨_, .receiver, by rw [Expression.rename]⟩
  | _, _, _, .variable, us, h => by
      obtain ⟨x, us₁, rfl, rfl, h₁⟩ := exists_identifier_of_map h
      obtain rfl := List.map_eq_nil_iff.mp h₁
      exact ⟨_, .variable, by rw [Expression.rename]⟩
  | _, _, _, .literal, us, h => by
      obtain ⟨value, us₁, rfl, rfl, h₁⟩ := exists_literal_of_map h
      obtain rfl := List.map_eq_nil_iff.mp h₁
      exact ⟨_, .literal, by rw [Expression.rename]⟩
  | _, _, _, .group he, us, h => by
      obtain ⟨vs, us₁, rfl, hvs, h₁⟩ := List.map_eq_append_iff.mp h
      obtain ⟨vs₁, rfl, hvs₁⟩ := exists_plain_of_map rfl hvs
      obtain ⟨us₂, rfl, h₂⟩ := exists_plain_of_map rfl h₁
      obtain rfl := List.map_eq_nil_iff.mp h₂
      obtain ⟨e, he₁, rfl⟩ := he.relabel vs₁ hvs₁
      exact ⟨_, .group he₁, by rw [Expression.rename]⟩

theorem Expression.SpelledEach.relabel : ∀ {es : List Expression} {ts : List Kind},
    Expression.SpelledEach es ts → ∀ us : List Kind, us.map (TokenKind.mapName ρ) = ts →
      ∃ es' : List Expression, Expression.SpelledEach es' us ∧ Expression.renameEach ρ es' = es
  | _, _, .none, us, h => by
      obtain rfl := List.map_eq_nil_iff.mp h
      exact ⟨_, .none, by rw [Expression.renameEach]⟩
  | _, _, .last he, us, h => by
      obtain ⟨e, he₁, rfl⟩ := he.relabel us h
      exact ⟨_, .last he₁, by rw [Expression.renameEach, Expression.renameEach]⟩
  | _, _, .more he hes, us, h => by
      obtain ⟨vs, us₁, rfl, hvs, h₁⟩ := List.map_eq_append_iff.mp h
      obtain ⟨us₂, rfl, h₂⟩ := exists_plain_of_map rfl h₁
      obtain ⟨e, he₁, rfl⟩ := he.relabel vs hvs
      obtain ⟨es, hes₁, hrename⟩ := hes.relabel us₂ h₂
      cases es with
      | nil => simp [Expression.renameEach] at hrename
      | cons e' es => exact ⟨_, .more he₁ hes₁, by rw [Expression.renameEach, hrename]⟩

end

theorem Expression.SpelledOption.relabel {value : Option Expression} {ts : List Kind}
    (hvalue : Expression.SpelledOption value ts) (us : List Kind)
    (h : us.map (TokenKind.mapName ρ) = ts) : ∃ value' : Option Expression,
      Expression.SpelledOption value' us ∧ value'.map (Expression.rename ρ) = value := by
  cases hvalue with
  | none =>
      obtain rfl := List.map_eq_nil_iff.mp h
      exact ⟨_, .none, rfl⟩
  | some he =>
      obtain ⟨e, he₁, rfl⟩ := he.relabel us h
      exact ⟨_, .some he₁, rfl⟩

theorem Declaration.VariableSpelled.relabel {x : Symbol} {value : Option Expression}
    {ts : List Kind} (hvalue : Declaration.VariableSpelled x value ts) (us : List Kind)
    (h : us.map (TokenKind.mapName ρ) = ts) : ∃ (y : Symbol) (value' : Option Expression),
      Declaration.VariableSpelled y value' us ∧ ρ y = x ∧
        value'.map (Expression.rename ρ) = value := by
  cases hvalue with
  | bare =>
      obtain ⟨y, us₁, rfl, rfl, h₁⟩ := exists_identifier_of_map h
      obtain ⟨us₂, rfl, h₂⟩ := exists_plain_of_map rfl h₁
      obtain rfl := List.map_eq_nil_iff.mp h₂
      exact ⟨_, _, .bare, rfl, rfl⟩
  | initial he =>
      obtain ⟨vs, us₁, rfl, hvs, h₁⟩ := List.map_eq_append_iff.mp h
      obtain ⟨y, vs₁, rfl, rfl, hvs₁⟩ := exists_identifier_of_map hvs
      obtain ⟨vs₂, rfl, hvs₂⟩ := exists_plain_of_map rfl hvs₁
      obtain ⟨us₂, rfl, h₂⟩ := exists_plain_of_map rfl h₁
      obtain rfl := List.map_eq_nil_iff.mp h₂
      obtain ⟨e, he₁, rfl⟩ := he.relabel vs₂ hvs₂
      exact ⟨_, _, .initial he₁, rfl, rfl⟩

theorem Initializer.Spelled.relabel {first : Initializer} {ts : List Kind} (hfirst : first.Spelled ts)
    (us : List Kind) (h : us.map (TokenKind.mapName ρ) = ts) :
    ∃ first' : Initializer, first'.Spelled us ∧ first'.rename ρ = first := by
  cases hfirst with
  | absent =>
      obtain ⟨us₁, rfl, h₁⟩ := exists_plain_of_map rfl h
      obtain rfl := List.map_eq_nil_iff.mp h₁
      exact ⟨_, .absent, rfl⟩
  | «variable» hvalue =>
      obtain ⟨us₁, rfl, h₁⟩ := exists_plain_of_map rfl h
      obtain ⟨y, value₁, hvalue₁, rfl, rfl⟩ := hvalue.relabel us₁ h₁
      exact ⟨_, .variable hvalue₁, rfl⟩
  | expression he =>
      obtain ⟨vs, us₁, rfl, hvs, h₁⟩ := List.map_eq_append_iff.mp h
      obtain ⟨us₂, rfl, h₂⟩ := exists_plain_of_map rfl h₁
      obtain rfl := List.map_eq_nil_iff.mp h₂
      obtain ⟨e, he₁, rfl⟩ := he.relabel vs hvs
      exact ⟨_, .expression he₁, rfl⟩

theorem FunctionTree.relabel_parameterTokens {names : List Symbol} {us : List Kind}
    (h : us.map (TokenKind.mapName ρ) = FunctionTree.parameterTokens names) :
    ∃ names' : List Symbol, us = FunctionTree.parameterTokens names' ∧ names'.map ρ = names := by
  induction names generalizing us with
  | nil =>
      obtain rfl := List.map_eq_nil_iff.mp h
      exact ⟨[], rfl, rfl⟩
  | cons x names ih =>
      cases names with
      | nil =>
          obtain ⟨y, us₁, rfl, rfl, h₁⟩ := exists_identifier_of_map h
          obtain rfl := List.map_eq_nil_iff.mp h₁
          exact ⟨[y], rfl, rfl⟩
      | cons x' names =>
          obtain ⟨y, us₁, rfl, rfl, h₁⟩ := exists_identifier_of_map h
          obtain ⟨us₂, rfl, h₂⟩ := exists_plain_of_map rfl h₁
          obtain ⟨names', rfl, hnames⟩ := ih h₂
          cases names' with
          | nil => cases hnames
          | cons y' names' => exact ⟨y :: y' :: names', rfl, congrArg _ hnames⟩

theorem Declaration.relabel_superclassTokens {superclass : Option Symbol} {us : List Kind}
    (h : us.map (TokenKind.mapName ρ) = Declaration.superclassTokens superclass) :
    ∃ superclass' : Option Symbol, us = Declaration.superclassTokens superclass' ∧
      superclass'.map ρ = superclass := by
  cases superclass with
  | none =>
      obtain rfl := List.map_eq_nil_iff.mp h
      exact ⟨none, rfl, rfl⟩
  | some x =>
      obtain ⟨us₁, rfl, h₁⟩ := exists_plain_of_map rfl h
      obtain ⟨y, us₂, rfl, rfl, h₂⟩ := exists_identifier_of_map h₁
      obtain rfl := List.map_eq_nil_iff.mp h₂
      exact ⟨some y, rfl, rfl⟩

mutual

theorem Statement.Spelled.relabel : ∀ {s : Statement} {ts : List Kind}, s.Spelled ts →
    ∀ us : List Kind, us.map (TokenKind.mapName ρ) = ts →
      ∃ s' : Statement, s'.Spelled us ∧ s'.rename ρ = s
  | _, _, .expression he, us, h => by
      obtain ⟨vs, us₁, rfl, hvs, h₁⟩ := List.map_eq_append_iff.mp h
      obtain ⟨us₂, rfl, h₂⟩ := exists_plain_of_map rfl h₁
      obtain rfl := List.map_eq_nil_iff.mp h₂
      obtain ⟨e, he₁, rfl⟩ := he.relabel vs hvs
      exact ⟨_, .expression he₁, by rw [Statement.rename]⟩
  | _, _, .print he, us, h => by
      obtain ⟨vs, us₁, rfl, hvs, h₁⟩ := List.map_eq_append_iff.mp h
      obtain ⟨vs₁, rfl, hvs₁⟩ := exists_plain_of_map rfl hvs
      obtain ⟨us₂, rfl, h₂⟩ := exists_plain_of_map rfl h₁
      obtain rfl := List.map_eq_nil_iff.mp h₂
      obtain ⟨e, he₁, rfl⟩ := he.relabel vs₁ hvs₁
      exact ⟨_, .print he₁, by rw [Statement.rename]⟩
  | _, _, .ifThen he hb, us, h => by
      obtain ⟨vs, us₁, rfl, hvs, h₁⟩ := List.map_eq_append_iff.mp h
      obtain ⟨vs₁, rfl, hvs₁⟩ := exists_plain_of_map rfl hvs
      obtain ⟨vs₂, rfl, hvs₂⟩ := exists_plain_of_map rfl hvs₁
      obtain ⟨us₂, rfl, h₂⟩ := exists_plain_of_map rfl h₁
      obtain ⟨e, he₁, rfl⟩ := he.relabel vs₂ hvs₂
      obtain ⟨b, hb₁, rfl⟩ := hb.relabel us₂ h₂
      exact ⟨_, .ifThen he₁ hb₁, by rw [Statement.rename]⟩
  | _, _, .ifElse hclosed he hb ho, us, h => by
      obtain ⟨vs, us₁, rfl, hvs, h₁⟩ := List.map_eq_append_iff.mp h
      obtain ⟨vs₁, ws, rfl, hvs₁, hws⟩ := List.map_eq_append_iff.mp hvs
      obtain ⟨vs₂, rfl, hvs₂⟩ := exists_plain_of_map rfl hvs₁
      obtain ⟨vs₃, rfl, hvs₃⟩ := exists_plain_of_map rfl hvs₂
      obtain ⟨ws₁, rfl, hws₁⟩ := exists_plain_of_map rfl hws
      obtain ⟨us₂, rfl, h₂⟩ := exists_plain_of_map rfl h₁
      obtain ⟨e, he₁, rfl⟩ := he.relabel vs₃ hvs₃
      obtain ⟨b, hb₁, rfl⟩ := hb.relabel ws₁ hws₁
      obtain ⟨o, ho₁, rfl⟩ := ho.relabel us₂ h₂
      exact ⟨_, .ifElse ((Statement.endsOpen_rename ρ b).symm.trans hclosed) he₁ hb₁ ho₁,
        by rw [Statement.rename]⟩
  | _, _, .whileLoop he hb, us, h => by
      obtain ⟨vs, us₁, rfl, hvs, h₁⟩ := List.map_eq_append_iff.mp h
      obtain ⟨vs₁, rfl, hvs₁⟩ := exists_plain_of_map rfl hvs
      obtain ⟨vs₂, rfl, hvs₂⟩ := exists_plain_of_map rfl hvs₁
      obtain ⟨us₂, rfl, h₂⟩ := exists_plain_of_map rfl h₁
      obtain ⟨e, he₁, rfl⟩ := he.relabel vs₂ hvs₂
      obtain ⟨b, hb₁, rfl⟩ := hb.relabel us₂ h₂
      exact ⟨_, .whileLoop he₁ hb₁, by rw [Statement.rename]⟩
  | _, _, .forLoop hi he hn hb, us, h => by
      obtain ⟨vs, us₁, rfl, hvs, h₁⟩ := List.map_eq_append_iff.mp h
      obtain ⟨vs₁, ws, rfl, hvs₁, hws⟩ := List.map_eq_append_iff.mp hvs
      obtain ⟨ws₁, rfl, hws₁⟩ := exists_plain_of_map rfl hws
      obtain ⟨vs₂, xs, rfl, hvs₂, hxs⟩ := List.map_eq_append_iff.mp hvs₁
      obtain ⟨vs₃, rfl, hvs₃⟩ := exists_plain_of_map rfl hvs₂
      obtain ⟨vs₄, rfl, hvs₄⟩ := exists_plain_of_map rfl hvs₃
      obtain ⟨us₂, rfl, h₂⟩ := exists_plain_of_map rfl h₁
      obtain ⟨i, hi₁, rfl⟩ := hi.relabel vs₄ hvs₄
      obtain ⟨e, he₁, rfl⟩ := he.relabel xs hxs
      obtain ⟨n, hn₁, rfl⟩ := hn.relabel ws₁ hws₁
      obtain ⟨b, hb₁, rfl⟩ := hb.relabel us₂ h₂
      exact ⟨_, .forLoop hi₁ he₁ hn₁ hb₁, by rw [Statement.rename]⟩
  | _, _, .ret he, us, h => by
      obtain ⟨vs, us₁, rfl, hvs, h₁⟩ := List.map_eq_append_iff.mp h
      obtain ⟨vs₁, rfl, hvs₁⟩ := exists_plain_of_map rfl hvs
      obtain ⟨us₂, rfl, h₂⟩ := exists_plain_of_map rfl h₁
      obtain rfl := List.map_eq_nil_iff.mp h₂
      obtain ⟨e, he₁, rfl⟩ := he.relabel vs₁ hvs₁
      exact ⟨_, .ret he₁, by rw [Statement.rename]⟩
  | _, _, .block hds, us, h => by
      obtain ⟨vs, us₁, rfl, hvs, h₁⟩ := List.map_eq_append_iff.mp h
      obtain ⟨vs₁, rfl, hvs₁⟩ := exists_plain_of_map rfl hvs
      obtain ⟨us₂, rfl, h₂⟩ := exists_plain_of_map rfl h₁
      obtain rfl := List.map_eq_nil_iff.mp h₂
      obtain ⟨ds, hds₁, rfl⟩ := hds.relabel vs₁ hvs₁
      exact ⟨_, .block hds₁, by rw [Statement.rename]⟩

theorem Declaration.Spelled.relabel : ∀ {d : Declaration} {ts : List Kind}, d.Spelled ts →
    ∀ us : List Kind, us.map (TokenKind.mapName ρ) = ts →
      ∃ d' : Declaration, d'.Spelled us ∧ d'.rename ρ = d
  | _, _, .classDeclaration hms, us, h => by
      obtain ⟨vs, us₁, rfl, hvs, h₁⟩ := List.map_eq_append_iff.mp h
      obtain ⟨vs₁, ws, rfl, hvs₁, hws⟩ := List.map_eq_append_iff.mp hvs
      obtain ⟨vs₂, rfl, hvs₂⟩ := exists_plain_of_map rfl hvs₁
      obtain ⟨x, vs₃, rfl, rfl, hvs₃⟩ := exists_identifier_of_map hvs₂
      obtain ⟨ws₁, rfl, hws₁⟩ := exists_plain_of_map rfl hws
      obtain ⟨us₂, rfl, h₂⟩ := exists_plain_of_map rfl h₁
      obtain rfl := List.map_eq_nil_iff.mp h₂
      obtain ⟨y, rfl, rfl⟩ := Declaration.relabel_superclassTokens hvs₃
      obtain ⟨ms, hms₁, rfl⟩ := hms.relabel ws₁ hws₁
      exact ⟨_, .classDeclaration hms₁, by rw [Declaration.rename]⟩
  | _, _, .funDeclaration hf, us, h => by
      obtain ⟨us₁, rfl, h₁⟩ := exists_plain_of_map rfl h
      obtain ⟨f, hf₁, rfl⟩ := hf.relabel us₁ h₁
      exact ⟨_, .funDeclaration hf₁, by rw [Declaration.rename]⟩
  | _, _, .varDeclaration hvalue, us, h => by
      obtain ⟨us₁, rfl, h₁⟩ := exists_plain_of_map rfl h
      obtain ⟨y, value, hvalue₁, rfl, rfl⟩ := hvalue.relabel us₁ h₁
      exact ⟨_, .varDeclaration hvalue₁, by rw [Declaration.rename]⟩
  | _, _, .statement hs, us, h => by
      obtain ⟨s, hs₁, rfl⟩ := hs.relabel us h
      exact ⟨_, .statement hs₁, by rw [Declaration.rename]⟩

theorem Declaration.SpelledEach.relabel : ∀ {ds : List Declaration} {ts : List Kind},
    Declaration.SpelledEach ds ts → ∀ us : List Kind, us.map (TokenKind.mapName ρ) = ts →
      ∃ ds' : List Declaration, Declaration.SpelledEach ds' us ∧ Declaration.renameEach ρ ds' = ds
  | _, _, .nil, us, h => by
      obtain rfl := List.map_eq_nil_iff.mp h
      exact ⟨_, .nil, by rw [Declaration.renameEach]⟩
  | _, _, .cons hd hds, us, h => by
      obtain ⟨vs, us₁, rfl, hvs, h₁⟩ := List.map_eq_append_iff.mp h
      obtain ⟨d, hd₁, rfl⟩ := hd.relabel vs hvs
      obtain ⟨ds, hds₁, rfl⟩ := hds.relabel us₁ h₁
      exact ⟨_, .cons hd₁ hds₁, by rw [Declaration.renameEach]⟩

theorem FunctionTree.Spelled.relabel : ∀ {f : FunctionTree} {ts : List Kind}, f.Spelled ts →
    ∀ us : List Kind, us.map (TokenKind.mapName ρ) = ts →
      ∃ f' : FunctionTree, f'.Spelled us ∧ f'.rename ρ = f
  | _, _, .mk hds, us, h => by
      obtain ⟨vs, us₁, rfl, hvs, h₁⟩ := List.map_eq_append_iff.mp h
      obtain ⟨vs₁, ws, rfl, hvs₁, hws⟩ := List.map_eq_append_iff.mp hvs
      obtain ⟨x, vs₂, rfl, rfl, hvs₂⟩ := exists_identifier_of_map hvs₁
      obtain ⟨vs₃, rfl, hvs₃⟩ := exists_plain_of_map rfl hvs₂
      obtain ⟨ws₁, rfl, hws₁⟩ := exists_plain_of_map rfl hws
      obtain ⟨ws₂, rfl, hws₂⟩ := exists_plain_of_map rfl hws₁
      obtain ⟨us₂, rfl, h₂⟩ := exists_plain_of_map rfl h₁
      obtain rfl := List.map_eq_nil_iff.mp h₂
      obtain ⟨ps, rfl, rfl⟩ := FunctionTree.relabel_parameterTokens hvs₃
      obtain ⟨ds, hds₁, rfl⟩ := hds.relabel ws₂ hws₂
      exact ⟨_, .mk hds₁, by rw [FunctionTree.rename]⟩

theorem FunctionTree.SpelledEach.relabel : ∀ {fs : List FunctionTree} {ts : List Kind},
    FunctionTree.SpelledEach fs ts → ∀ us : List Kind, us.map (TokenKind.mapName ρ) = ts →
      ∃ fs' : List FunctionTree, FunctionTree.SpelledEach fs' us ∧
        FunctionTree.renameEach ρ fs' = fs
  | _, _, .nil, us, h => by
      obtain rfl := List.map_eq_nil_iff.mp h
      exact ⟨_, .nil, by rw [FunctionTree.renameEach]⟩
  | _, _, .cons hf hfs, us, h => by
      obtain ⟨vs, us₁, rfl, hvs, h₁⟩ := List.map_eq_append_iff.mp h
      obtain ⟨f, hf₁, rfl⟩ := hf.relabel vs hvs
      obtain ⟨fs, hfs₁, rfl⟩ := hfs.relabel us₁ h₁
      exact ⟨_, .cons hf₁ hfs₁, by rw [FunctionTree.renameEach]⟩

end

end LoxCompiler
