import LoxCompiler.Proofs.Parsing.Step

/-! # Expressions that were read are trees

A clean run of the expression parser at some level does what compiling a tree of that level
does. The operators that are read one after the other grow the tree to the right, and what was
read so far is always an operand for the next one.
-/

set_option synthInstance.maxSize 4096

namespace LoxCompiler.Compile

variable {β : Type} {w : Width β}

/-- Compiling an operand cleanly is compiling a tree of its level, up to an operator that binds
too weakly. -/
def ReadsTrees (operand : Precedence → Compile w.settings Unit) : Prop :=
  ∀ ⦃level : Precedence⦄ ⦃s t : Session β⦄, .assignment ≤ level → level ≤ .unary →
    Cleanly (operand level) s () t →
    ∃ e ts, Expression.Spelled level e ts ∧
      Cleanly (e.compile : Compile w.settings Unit) s () t ∧
      ¬ level ≤ (Rule.ofKind t.reader.current.kind).precedence

/-- The tree `e` of level `own` was read from one state to another, and operators down to some
level may follow it. -/
structure Part (w : Width β) (level own : Precedence) (e : Expression) (s t : Session β) :
    Prop where
  le_own : level ≤ own
  spelled : ∃ ts, Expression.Spelled own e ts
  compiled : Cleanly (e.compile : Compile w.settings Unit) s () t
  operand : ¬ own.edge ≤ (Rule.ofKind t.reader.current.kind).precedence
  method : e.endsInName = true → t.reader.current.kind ≠ .openParen

section Level

variable {operand : Precedence → Compile w.settings Unit} [∀ level, Orderly (operand level)]
  (hoperand : ReadsTrees operand) {budget : Nat} {s t u : Session β}
include hoperand

theorem separated_argument {fuel count n : Nat}
    (h : Cleanly (separated (fun count => do
        operand .assignment
        if w.limits.arguments = some count then report .tooManyArguments) fuel count) s n t) :
    ∃ e es ts, Expression.SpelledEach (e :: es) ts ∧ n = count + (e :: es).length ∧
      Cleanly (Expression.compileEach (e :: es) count : Compile w.settings Unit) s () t := by
  induction fuel generalizing s count with
  | zero => exact (cleanly_throw h).elim
  | succ fuel ih =>
      unfold separated at h
      obtain ⟨_, u, hargument, htail⟩ := h.of_bind
      obtain ⟨_, u', hvalue, hcheck⟩ := hargument.of_bind
      obtain ⟨e, ts, hspelled, he, _⟩ := hoperand (by decide) (by decide) hvalue
      obtain ⟨comma, v, haccept, hend⟩ := htail.of_bind
      rcases cleanly_accept.mp haccept with ⟨rfl, hcomma⟩ | ⟨rfl, _, _, rfl⟩
      · obtain ⟨e', es, us, hrest, hn, hes⟩ := ih hend
        refine ⟨e, e' :: es, _, .more hspelled hrest, ?_, ?_⟩
        · simp only [hn, List.length_cons]
          omega
        · unfold Expression.compileEach
          exact he.bind (hcheck.bind (hcomma.bind hes))
      · obtain ⟨_, rfl, rfl⟩ := cleanly_pure.mp hend
        refine ⟨e, [], ts, .last hspelled, rfl, ?_⟩
        unfold Expression.compileEach
        exact he.bind hcheck

theorem argumentList_reads {n : Nat} (h : Cleanly (argumentList operand budget) s n t) :
    ∃ es ts u, Expression.SpelledEach es ts ∧ n = Limits.clamp w.limits.arguments es.length ∧
      Cleanly (Expression.compileEach es 0 : Compile w.settings Unit) s () u ∧
      Cleanly (expect .closeParen : Compile w.settings Unit) u () t := by
  unfold argumentList at h
  dsimp only at h
  rw [cleanly_check_bind] at h
  split at h
  · rw [pure_bind] at h
    obtain ⟨_, v, hclose, hend⟩ := h.of_bind
    obtain ⟨_, rfl, rfl⟩ := cleanly_pure.mp hend
    refine ⟨[], [], s, .none, rfl, ?_, cleanly_consume_iff_expect.mp hclose⟩
    unfold Expression.compileEach
    exact cleanly_pure.mpr ⟨hclose.before, rfl, rfl⟩
  · obtain ⟨count, u, hseparated, htail⟩ := h.of_bind
    obtain ⟨_, v, hclose, hend⟩ := htail.of_bind
    obtain ⟨_, rfl, rfl⟩ := cleanly_pure.mp hend
    obtain ⟨e, es, ts, hspelled, rfl, hes⟩ := separated_argument hoperand hseparated
    refine ⟨e :: es, ts, u, hspelled, ?_, hes, cleanly_consume_iff_expect.mp hclose⟩
    rw [Nat.zero_add]

theorem named_reads {name : Symbol} {level : Precedence} (hlevel : level ≤ .unary)
    (hname : Cleanly (expect (.identifier name) : Compile w.settings Unit) s () u)
    (h : Cleanly (named operand (decide (level ≤ .assignment))) u () t) :
    ∃ own e, Part w level own e s t := by
  unfold named at h
  rw [cleanly_previous_bind, hname.previous_of_expect] at h
  obtain ⟨access, v, haccess, htail⟩ := h.of_bind
  obtain ⟨found, v', hfound, hrest⟩ := htail.of_bind
  rcases cleanly_acceptAssign.mp hfound with ⟨rfl, hcan, hassign⟩ | ⟨rfl, _, _, rfl⟩
  · obtain ⟨_, t', hvalue, hemit⟩ := Cleanly.of_bind (show Cleanly (_ >>= fun _ => _) _ _ _ from hrest)
    obtain ⟨e, ts, hspelled, he, hweak⟩ := hoperand (by decide) (by decide) hvalue
    refine ⟨.assignment, .assign name e, of_decide_eq_true hcan, ⟨_, .assign hspelled⟩, ?_, ?_,
      fun hends => by cases hends⟩
    · unfold Expression.compile
      exact hname.bind (haccess.bind (hassign.bind (he.bind hemit)))
    · rw [Still.reader_eq hemit]
      exact hweak
  · refine ⟨.primary, .variable name, Precedence.le_trans hlevel (by decide), ⟨_, .variable⟩, ?_,
      Rule.not_primary_le _, fun hends => by cases hends⟩
    unfold Expression.compile
    exact hname.bind (haccess.bind hrest)

theorem superclass_reads {level : Precedence} (hlevel : level ≤ .unary)
    (hsuper : Cleanly (expect (.keyword .superWord) : Compile w.settings Unit) s () u)
    (h : Cleanly (superclass operand budget) u () t) : ∃ own e, Part w level own e s t := by
  unfold superclass at h
  dsimp only at h
  rw [cleanly_read_bind] at h
  obtain ⟨_, u', hproblem, h₁⟩ := h.of_bind
  obtain ⟨hnone, _, rfl⟩ := cleanly_forM_report.mp hproblem
  obtain ⟨_, v, hdot, h₂⟩ := h₁.of_bind
  obtain ⟨method, v', hmethod, h₃⟩ := h₂.of_bind
  rw [hnone] at h₃
  obtain ⟨index, x, hindex, h₄⟩ :=
    Cleanly.of_bind (show Cleanly (addName method >>= fun _ => _) _ _ _ from h₃)
  rw [cleanly_read_bind] at h₄
  obtain ⟨_, y, hthis, h₅⟩ := h₄.of_bind
  have hlead : Cleanly (superMethod method : Compile w.settings (Nat × Symbol)) s
      (index, x.names.super) y := by
    unfold superMethod
    refine hsuper.bind (cleanly_read_bind.mpr (hproblem.bind ?_))
    refine (cleanly_consume_iff_expect.mp hdot).bind ?_
    refine (cleanly_consumeIdentifier.mp hmethod).bind (hindex.bind ?_)
    exact cleanly_read_bind.mpr (hthis.bind (cleanly_pure.mpr ⟨hthis.after, rfl, rfl⟩))
  obtain ⟨called, z, hcalled, h₆⟩ := h₅.of_bind
  rcases cleanly_accept.mp hcalled with ⟨rfl, hopen⟩ | ⟨rfl, hnot, _, rfl⟩
  · obtain ⟨n, z', harguments, hemit⟩ :=
      Cleanly.of_bind (show Cleanly (argumentList operand budget >>= fun _ => _) _ _ _ from h₆)
    obtain ⟨es, ts, z'', hspelled, rfl, hes, hclose⟩ := argumentList_reads hoperand harguments
    refine ⟨.call, .superCall method es, Precedence.le_trans hlevel (by decide),
      ⟨_, .superCall hspelled⟩, ?_, Rule.not_primary_le _, fun hends => by cases hends⟩
    unfold Expression.compile
    exact hlead.bind (hopen.bind (hes.bind (hclose.bind hemit)))
  · refine ⟨.primary, .superGet method, Precedence.le_trans hlevel (by decide),
      ⟨_, .superGet⟩, ?_, Rule.not_primary_le _, ?_⟩
    · unfold Expression.compile
      exact hlead.bind h₆
    · have hget : Cleanly (do
          loadVariable x.names.super
          emitWith .getSuper index : Compile w.settings Unit) z () t := h₆
      rw [Still.reader_eq hget]
      exact fun _ => hnot

/-- The token that starts an expression is read with what belongs to it as a tree. -/
theorem start_reads {level : Precedence} (hlevel : level ≤ .unary)
    (h : Cleanly (start operand budget level) s () t) : ∃ own e, Part w level own e s t := by
  obtain ⟨u, leading, hfirst, _, hleading, hlead⟩ := cleanly_start.mp h
  have hkind := Rule.of_leading hleading
  have hprimary : level ≤ .primary := Precedence.le_trans hlevel (by decide)
  unfold lead at hlead
  cases leading with
  | grouping =>
      rw [show s.reader.current.kind = .openParen from hkind] at hfirst
      obtain ⟨_, v, hinner, hclose⟩ := hlead.of_bind
      obtain ⟨e, ts, hspelled, he, _⟩ := hoperand (by decide) (by decide) hinner
      refine ⟨.primary, .group e, hprimary, ⟨_, .group hspelled⟩, ?_, Rule.not_primary_le _,
        fun hends => by cases hends⟩
      unfold Expression.compile
      exact hfirst.bind (he.bind (cleanly_consume_iff_expect.mp hclose))
  | unary =>
      obtain ⟨op, hop, hunary⟩ := hkind
      rw [hop] at hfirst
      unfold unary at hlead
      dsimp only at hlead
      rw [cleanly_previous_bind, hfirst.previous_of_expect] at hlead
      obtain ⟨_, v, hvalue, hemit⟩ := hlead.of_bind
      obtain ⟨e, ts, hspelled, he, hweak⟩ := hoperand (by decide) (by decide) hvalue
      refine ⟨.unary, .unary op e, hlevel, ⟨_, .unary hunary hspelled⟩, ?_, ?_,
        fun hends => by cases hends⟩
      · unfold Expression.compile
        exact hfirst.bind (he.bind hemit)
      · rw [Still.reader_eq hemit]
        exact hweak
  | number =>
      obtain ⟨value, hvalue⟩ := hkind
      rw [hvalue] at hfirst
      unfold numberLiteral at hlead
      rw [cleanly_previous_bind, hfirst.previous_of_expect] at hlead
      refine ⟨.primary, .literal (.number value), hprimary, ⟨_, .literal⟩, ?_,
        Rule.not_primary_le _, fun hends => by cases hends⟩
      unfold Expression.compile
      exact hfirst.bind hlead
  | string =>
      obtain ⟨value, hvalue⟩ := hkind
      rw [hvalue] at hfirst
      unfold stringLiteral at hlead
      rw [cleanly_previous_bind, hfirst.previous_of_expect] at hlead
      refine ⟨.primary, .literal (.string value), hprimary, ⟨_, .literal⟩, ?_,
        Rule.not_primary_le _, fun hends => by cases hends⟩
      unfold Expression.compile
      exact hfirst.bind hlead
  | literal =>
      unfold wordLiteral at hlead
      rw [cleanly_previous_bind, hfirst.previous_of_expect] at hlead
      rcases hkind with hvalue | ⟨value, hvalue⟩
      · rw [hvalue] at hfirst hlead
        refine ⟨.primary, .literal .nil, hprimary, ⟨_, .literal⟩, ?_,
          Rule.not_primary_le _, fun hends => by cases hends⟩
        unfold Expression.compile
        exact hfirst.bind hlead
      · rw [hvalue] at hfirst hlead
        refine ⟨.primary, .literal (.boolean value), hprimary, ⟨_, .literal⟩, ?_,
          Rule.not_primary_le _, fun hends => by cases hends⟩
        unfold Expression.compile
        cases value <;> exact hfirst.bind hlead
  | name =>
      obtain ⟨name, hname⟩ := hkind
      rw [hname] at hfirst
      exact named_reads hoperand hlevel hfirst hlead
  | receiver =>
      rw [show s.reader.current.kind = .keyword .thisWord from hkind] at hfirst
      refine ⟨.primary, .receiver, hprimary, ⟨_, .receiver⟩, ?_, Rule.not_primary_le _,
        fun hends => by cases hends⟩
      unfold Expression.compile
      exact hfirst.bind hlead
  | superclass =>
      rw [show s.reader.current.kind = .keyword .superWord from hkind] at hfirst
      exact superclass_reads hoperand hlevel hfirst hlead

theorem property_reads {own level : Precedence} {e : Expression} (hlevel : level ≤ .unary)
    (he : Part w level own e s t) (hown : .call ≤ own)
    (hdot : Cleanly (expect .dot : Compile w.settings Unit) t () u) {v : Session β}
    (h : Cleanly (property operand budget (decide (level ≤ .assignment))) u () v) :
    ∃ own e, Part w level own e s v := by
  obtain ⟨ts, hspelled⟩ := he.spelled
  have hobject := hspelled.of_le hown
  have hcall : level ≤ .call := Precedence.le_trans hlevel (by decide)
  unfold property at h
  obtain ⟨name, x, hname, h₁⟩ := h.of_bind
  have hproperty := cleanly_consumeIdentifier.mp hname
  obtain ⟨index, y, hindex, h₂⟩ := h₁.of_bind
  obtain ⟨assigned, z, hassigned, h₃⟩ := h₂.of_bind
  rcases cleanly_acceptAssign.mp hassigned with ⟨rfl, hcan, hassign⟩ | ⟨rfl, _, _, rfl⟩
  · obtain ⟨_, z', hvalue, hemit⟩ :=
      Cleanly.of_bind (show Cleanly (operand .assignment >>= fun _ => _) _ _ _ from h₃)
    obtain ⟨value, us, hvalueSpelled, hvalueCompiled, hweak⟩ := hoperand (by decide) (by decide) hvalue
    refine ⟨.assignment, .set e name value, of_decide_eq_true hcan,
      ⟨_, .set hobject hvalueSpelled⟩, ?_, ?_, fun hends => by cases hends⟩
    · unfold Expression.compile
      exact he.compiled.bind (hdot.bind (hproperty.bind (hindex.bind
        (hassign.bind (hvalueCompiled.bind hemit)))))
    · rw [Still.reader_eq hemit]
      exact hweak
  · obtain ⟨called, z', hcalled, h₄⟩ :=
      Cleanly.of_bind (show Cleanly (accept .openParen >>= fun called => if called then _ else _)
        _ _ _ from h₃)
    rcases cleanly_accept.mp hcalled with ⟨rfl, hopen⟩ | ⟨rfl, hnot, _, rfl⟩
    · obtain ⟨n, z'', harguments, hemit⟩ :=
        Cleanly.of_bind (show Cleanly (argumentList operand budget >>= fun _ => _) _ _ _ from h₄)
      obtain ⟨es, us, x', hargumentsSpelled, rfl, hes, hclose⟩ :=
        argumentList_reads hoperand harguments
      refine ⟨.call, .invoke e name es, hcall, ⟨_, .invoke hobject hargumentsSpelled⟩, ?_,
        Rule.not_primary_le _, fun hends => by cases hends⟩
      unfold Expression.compile
      exact he.compiled.bind (hdot.bind (hproperty.bind (hindex.bind
        (hopen.bind (hes.bind (hclose.bind hemit))))))
    · have hget : Cleanly (emitWith .getProperty index : Compile w.settings Unit) z' () v := h₄
      refine ⟨.call, .get e name, hcall, ⟨_, .get hobject⟩, ?_, Rule.not_primary_le _, ?_⟩
      · unfold Expression.compile
        exact he.compiled.bind (hdot.bind (hproperty.bind (hindex.bind hget)))
      · rw [Still.reader_eq hget]
        exact fun _ => hnot

/-- An operator after what was read makes it the left part of a greater tree. -/
theorem operator_reads {own level : Precedence} {e : Expression} (hweak : .assignment ≤ level)
    (hlevel : level ≤ .unary) (he : Part w level own e s t)
    (hnext : level ≤ (Rule.ofKind t.reader.current.kind).precedence)
    (h : Cleanly (operator operand budget level) t () u) : ∃ own e, Part w level own e s u := by
  obtain ⟨ts, hspelled⟩ := he.spelled
  have hsome : (Rule.ofKind t.reader.current.kind).precedence ≠ .none := by
    intro hnone
    rw [hnone] at hnext
    exact absurd (Precedence.le_trans hweak hnext) (by decide)
  obtain ⟨continuing, hcontinuing⟩ := Rule.continuing_of_precedence hsome
  obtain ⟨v, htoken, _, hextend⟩ := (cleanly_operator hcontinuing).mp h
  have hkind := Rule.of_continuing hcontinuing
  have hedge := he.operand
  unfold extend at hextend
  cases continuing with
  | binary =>
      obtain ⟨op, hop, hbinary⟩ := hkind
      obtain ⟨hleft, hstrong, hfactor⟩ := Rule.binary_level hbinary
      rw [hop] at htoken hedge hnext
      unfold binary at hextend
      dsimp only at hextend
      rw [cleanly_previous_bind, htoken.previous_of_expect] at hextend
      obtain ⟨_, x, hvalue, hemit⟩ := hextend.of_bind
      have hright : .assignment ≤ (Rule.ofOperator op).precedence.next ∧
          (Rule.ofOperator op).precedence.next ≤ .unary := by
        cases op <;> first | exact absurd hbinary (by decide) | decide
      obtain ⟨r, us, hrSpelled, hr, hend⟩ := hoperand hright.1 hright.2 hvalue
      refine ⟨(Rule.ofOperator op).precedence, .binary op e r, hnext,
        ⟨_, .binary hbinary (hspelled.of_le (Precedence.le_of_not_edge_le hedge)) hrSpelled⟩,
        ?_, ?_, fun hends => by cases hends⟩
      · unfold Expression.compile
        exact he.compiled.bind (htoken.bind (hr.bind hemit))
      · rw [Still.reader_eq hemit, hleft]
        exact hend
  | and =>
      rw [show t.reader.current.kind = .operator .and from hkind] at htoken hedge hnext
      obtain ⟨skip, x, hskip, h₁⟩ := hextend.of_bind
      obtain ⟨_, y, hpop, h₂⟩ := h₁.of_bind
      obtain ⟨_, z, hvalue, hpatch⟩ := h₂.of_bind
      obtain ⟨r, us, hrSpelled, hr, hend⟩ := hoperand (by decide) (by decide) hvalue
      refine ⟨.and, .and e r, hnext,
        ⟨_, .and (hspelled.of_le (Precedence.equality_le_of_not_edge_le hedge)) hrSpelled⟩,
        ?_, ?_, fun hends => by cases hends⟩
      · unfold Expression.compile
        exact he.compiled.bind (htoken.bind (hskip.bind (hpop.bind (hr.bind hpatch))))
      · rw [Still.reader_eq hpatch]
        exact hend
  | or =>
      rw [show t.reader.current.kind = .operator .or from hkind] at htoken hedge hnext
      obtain ⟨next, x, hnextJump, h₁⟩ := hextend.of_bind
      obtain ⟨skip, x', hskip, h₂⟩ := h₁.of_bind
      obtain ⟨_, y, hpatchNext, h₃⟩ := h₂.of_bind
      obtain ⟨_, y', hpop, h₄⟩ := h₃.of_bind
      obtain ⟨_, z, hvalue, hpatch⟩ := h₄.of_bind
      obtain ⟨r, us, hrSpelled, hr, hend⟩ := hoperand (by decide) (by decide) hvalue
      refine ⟨.or, .or e r, hnext,
        ⟨_, .or (hspelled.of_le (Precedence.and_le_of_not_edge_le hedge)) hrSpelled⟩,
        ?_, ?_, fun hends => by cases hends⟩
      · unfold Expression.compile
        exact he.compiled.bind (htoken.bind (hnextJump.bind (hskip.bind
          (hpatchNext.bind (hpop.bind (hr.bind hpatch))))))
      · rw [Still.reader_eq hpatch]
        exact hend
  | call =>
      have hopen : t.reader.current.kind = .openParen := hkind
      rw [hopen] at htoken hedge hnext
      obtain ⟨n, x, harguments, hemit⟩ := hextend.of_bind
      obtain ⟨es, us, y, hesSpelled, rfl, hes, hclose⟩ := argumentList_reads hoperand harguments
      have hplain : e.endsInName = false := by
        cases hends : e.endsInName with
        | false => rfl
        | true => exact (he.method hends hopen).elim
      refine ⟨.call, .call e es, hnext,
        ⟨_, .call hplain (hspelled.of_le (Precedence.le_of_not_edge_le hedge)) hesSpelled⟩,
        ?_, Rule.not_primary_le _, fun hends => by cases hends⟩
      unfold Expression.compile
      exact he.compiled.bind (htoken.bind (hes.bind (hclose.bind hemit)))
  | property =>
      rw [show t.reader.current.kind = .dot from hkind] at htoken hedge hnext
      exact property_reads hoperand hlevel he (Precedence.le_of_not_edge_le hedge) htoken hextend

/-- Operators one after the other are read as one tree. -/
theorem operators_read {own level : Precedence} {e : Expression} {fuel : Nat}
    (hweak : .assignment ≤ level) (hlevel : level ≤ .unary) (he : Part w level own e s t)
    (h : Cleanly (repeatWhile (atOperator level) (operator operand budget level) fuel) t () u) :
    ∃ own e, Part w level own e s u ∧
      ¬ level ≤ (Rule.ofKind u.reader.current.kind).precedence := by
  induction fuel generalizing own e t with
  | zero => exact (cleanly_throw h).elim
  | succ fuel ih =>
      rcases h.of_repeatWhile with hstop | ⟨v, x, hgo, hstep, hrest⟩
      · obtain ⟨_, hstop, rfl⟩ := cleanly_atOperator.mp hstop
        exact ⟨own, e, he, of_decide_eq_false hstop.symm⟩
      · obtain ⟨_, hgo, rfl⟩ := cleanly_atOperator.mp hgo
        obtain ⟨own', e', he'⟩ :=
          operator_reads hoperand hweak hlevel he (of_decide_eq_true hgo.symm) hstep
        exact ih he' hrest

theorem expressionStep_reads {level : Precedence} (hweak : .assignment ≤ level)
    (hlevel : level ≤ .unary) (h : Cleanly (expressionStep operand budget level) s () t) :
    ∃ e ts, Expression.Spelled level e ts ∧
      Cleanly (e.compile : Compile w.settings Unit) s () t ∧
      ¬ level ≤ (Rule.ofKind t.reader.current.kind).precedence := by
  obtain ⟨u, hstart, hloop, _⟩ := cleanly_expressionStep.mp h
  obtain ⟨own, e, he⟩ := start_reads hoperand hlevel hstart
  obtain ⟨own', e', he', hend⟩ := operators_read hoperand hweak hlevel he hloop
  obtain ⟨ts, hspelled⟩ := he'.spelled
  exact ⟨e', ts, hspelled.of_le he'.le_own, he'.compiled, hend⟩

end Level

/-- A clean run of the expression parser at a level compiles a tree of that level. -/
theorem expressionAt_reads (budget : Nat) :
    ReadsTrees (expressionAt budget : Precedence → Compile w.settings Unit) := by
  induction budget with
  | zero => exact fun _ _ _ _ _ h => (cleanly_throw h).elim
  | succ budget ih =>
      intro level s t hweak hlevel h
      exact expressionStep_reads ih hweak hlevel
        (show Cleanly (expressionStep (expressionAt budget) (budget + 1) level) s () t from h)

theorem expression_reads {budget : Nat} {s t : Session β}
    (h : Cleanly (expression budget : Compile w.settings Unit) s () t) :
    ∃ e ts, Expression.Spelled .assignment e ts ∧
      Cleanly (e.compile : Compile w.settings Unit) s () t := by
  obtain ⟨e, ts, hspelled, he, _⟩ := expressionAt_reads budget (by decide) (by decide) h
  exact ⟨e, ts, hspelled, he⟩

end LoxCompiler.Compile
