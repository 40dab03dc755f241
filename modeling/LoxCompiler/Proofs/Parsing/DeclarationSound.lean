import LoxCompiler.Proofs.Parsing.ExpressionSound

/-! # Declarations that were read are trees

A clean run of the parser on declarations and statements does what compiling their trees does.
The first word tells most constructs apart. An `else` is taken by the innermost statement that
can have it, so a statement that could is never followed by one.
-/

set_option synthInstance.maxSize 4096

namespace LoxCompiler.Compile

variable {β : Type} {w : Width β}

/-- What stands inside a statement or declaration is read as trees. -/
structure ReadsInner (inner : Inner w.settings) : Prop where
  declaration : ∀ {s t : Session β}, Cleanly inner.declaration s () t →
    ∃ d ts, Declaration.Spelled d ts ∧ Cleanly (d.compile : Compile w.settings Unit) s () t
  statement : ∀ {s t : Session β}, Cleanly inner.statement s () t →
    ∃ b ts, Statement.Spelled b ts ∧ Cleanly (b.compile : Compile w.settings Unit) s () t ∧
      (b.endsOpen = true → t.reader.current.kind ≠ .keyword .elseWord)

/-- The name in the last token taken. -/
theorem cleanly_previousName_bind {γ : Type} {k : Symbol → Compile w.settings γ} {s t : Session β}
    {a : γ} {name : Symbol} (hname : s.reader.previous.kind = .identifier name) :
    Cleanly (previousName >>= k) s a t ↔ Cleanly (k name) s a t := by
  unfold previousName
  rw [bind_assoc, cleanly_previous_bind, hname]
  dsimp only
  rw [pure_bind]

/-- Before a closing brace the declarations of a block, or the methods of a class, end. -/
def insideBraces : Compile w.settings Bool := do
  return !(← check .closeBrace) && !(← check .endOfInput)

theorem cleanly_insideBraces {s t : Session β} {a : Bool} :
    Cleanly (insideBraces : Compile w.settings Bool) s a t ↔ s.reader.Quiet ∧
      a = (!s.reader.check .closeBrace && !s.reader.check .endOfInput) ∧ t = s := by
  unfold insideBraces
  rw [cleanly_check_bind, cleanly_check_bind, cleanly_pure]

instance : Orderly (insideBraces : Compile w.settings Bool) := by
  unfold insideBraces
  infer_instance

section Inner

variable {inner : Inner w.settings} {s t u : Session β}

theorem declaredName_reads {message : String} {index : Nat}
    (h : Cleanly (declaredName message : Compile w.settings Nat) s index t) :
    ∃ name, Cleanly (declareNamed name : Compile w.settings Nat) s index t := by
  unfold declaredName at h
  obtain ⟨name, u, hname, hrest⟩ := h.of_bind
  refine ⟨name, ?_⟩
  unfold declareNamed
  exact (cleanly_consumeIdentifier.mp hname).bind hrest

/-- The name of a declared variable is the last token taken. -/
theorem Cleanly.previous_of_declareNamed {name : Symbol} {index : Nat}
    (h : Cleanly (declareNamed name : Compile w.settings Nat) s index t) :
    t.reader.previous.kind = .identifier name := by
  unfold declareNamed at h
  obtain ⟨_, u, hname, hrest⟩ := h.of_bind
  rw [Still.reader_eq hrest]
  exact hname.previous_of_expect

theorem varDeclaration_reads (h : Cleanly (varDeclaration inner) s () t) :
    ∃ name value ts, Declaration.VariableSpelled name value ts ∧
      Cleanly (compileVariable name value : Compile w.settings Unit) s () t := by
  unfold varDeclaration at h
  obtain ⟨index, a, hname, h₁⟩ := h.of_bind
  obtain ⟨name, hdeclared⟩ := declaredName_reads hname
  obtain ⟨found, b, hequals, h₂⟩ := h₁.of_bind
  rcases cleanly_accept.mp hequals with ⟨rfl, hassign⟩ | ⟨rfl, _, _, rfl⟩
  · obtain ⟨_, c, hvalue, h₃⟩ :=
      Cleanly.of_bind (show Cleanly (expression inner.budget >>= fun _ => _) _ _ _ from h₂)
    obtain ⟨_, d, hsemicolon, hdefine⟩ := h₃.of_bind
    obtain ⟨e, ts, he, hcompiled⟩ := expression_reads hvalue
    refine ⟨name, some e, _, .initial he, ?_⟩
    unfold compileVariable
    have hinitial : Cleanly (compileInitial (some e) : Compile w.settings Unit) a () c :=
      hassign.bind hcompiled
    exact hdeclared.bind (hinitial.bind
      ((cleanly_consume_iff_expect.mp hsemicolon).bind hdefine))
  · obtain ⟨_, c, hnil, h₃⟩ :=
      Cleanly.of_bind (show Cleanly (emit .pushNil >>= fun _ => _) _ _ _ from h₂)
    obtain ⟨_, d, hsemicolon, hdefine⟩ := h₃.of_bind
    have hinitial : Cleanly (compileInitial none : Compile w.settings Unit) b () c := hnil
    refine ⟨name, none, _, .bare, ?_⟩
    unfold compileVariable
    exact hdeclared.bind (hinitial.bind
      ((cleanly_consume_iff_expect.mp hsemicolon).bind hdefine))

theorem expressionStatement_reads (h : Cleanly (expressionStatement inner) s () t) :
    ∃ e ts, Expression.Spelled .assignment e ts ∧
      Cleanly (do
        e.compile
        expect .semicolon
        emit .pop : Compile w.settings Unit) s () t := by
  unfold expressionStatement at h
  obtain ⟨_, a, hvalue, h₁⟩ := h.of_bind
  obtain ⟨_, b, hsemicolon, hpop⟩ := h₁.of_bind
  obtain ⟨e, ts, he, hcompiled⟩ := expression_reads hvalue
  exact ⟨e, ts, he, hcompiled.bind ((cleanly_consume_iff_expect.mp hsemicolon).bind hpop)⟩

theorem forInitializer_reads (h : Cleanly (forInitializer inner) s () t) :
    ∃ first ts, Initializer.Spelled first ts ∧
      Cleanly (first.compile : Compile w.settings Unit) s () t := by
  unfold forInitializer at h
  obtain ⟨found, a, hsemicolon, h₁⟩ := h.of_bind
  rcases cleanly_accept.mp hsemicolon with ⟨rfl, hnone⟩ | ⟨rfl, _, _, rfl⟩
  · obtain ⟨_, _, rfl⟩ := cleanly_pure.mp h₁
    refine ⟨.absent, _, .absent, ?_⟩
    unfold Initializer.compile
    exact hnone
  · obtain ⟨found, b, hvar, h₂⟩ :=
      Cleanly.of_bind (show Cleanly (accept (.keyword .varWord) >>= fun found =>
        if found then varDeclaration inner else expressionStatement inner) _ _ _ from h₁)
    rcases cleanly_accept.mp hvar with ⟨rfl, hword⟩ | ⟨rfl, _, _, rfl⟩
    · obtain ⟨name, value, ts, hspelled, hcompiled⟩ := varDeclaration_reads h₂
      refine ⟨.variable name value, _, .variable hspelled, ?_⟩
      unfold Initializer.compile
      exact hword.bind hcompiled
    · obtain ⟨e, ts, he, hcompiled⟩ := expressionStatement_reads h₂
      refine ⟨.expression e, _, .expression he, ?_⟩
      unfold Initializer.compile
      exact hcompiled

theorem forCondition_reads {exit : Option Nat} (h : Cleanly (forCondition inner) s exit t) :
    ∃ condition ts, Expression.SpelledOption condition ts ∧
      Cleanly (compileCondition condition : Compile w.settings (Option Nat)) s exit t := by
  unfold forCondition at h
  obtain ⟨found, a, hsemicolon, h₁⟩ := h.of_bind
  rcases cleanly_accept.mp hsemicolon with ⟨rfl, hnone⟩ | ⟨rfl, _, _, rfl⟩
  · refine ⟨none, _, .none, ?_⟩
    unfold compileCondition
    exact hnone.bind h₁
  · obtain ⟨_, b, hvalue, h₂⟩ :=
      Cleanly.of_bind (show Cleanly (expression inner.budget >>= fun _ => _) _ _ _ from h₁)
    obtain ⟨_, c, hend, h₃⟩ := h₂.of_bind
    obtain ⟨e, ts, he, hcompiled⟩ := expression_reads hvalue
    refine ⟨some e, _, .some he, ?_⟩
    unfold compileCondition
    exact hcompiled.bind ((cleanly_consume_iff_expect.mp hend).bind h₃)

theorem forIncrement_reads {start next : Nat} (h : Cleanly (forIncrement inner start) s next t) :
    ∃ increment ts, Expression.SpelledOption increment ts ∧
      Cleanly (compileIncrement start increment : Compile w.settings Nat) s next t := by
  unfold forIncrement at h
  obtain ⟨found, a, hclose, h₁⟩ := h.of_bind
  rcases cleanly_accept.mp hclose with ⟨rfl, hnone⟩ | ⟨rfl, _, _, rfl⟩
  · refine ⟨none, _, .none, ?_⟩
    unfold compileIncrement
    exact hnone.bind h₁
  · obtain ⟨body, b, hbody, h₂⟩ :=
      Cleanly.of_bind (show Cleanly (emitJump .jump >>= fun _ => _) _ _ _ from h₁)
    obtain ⟨increment, c, hsize, h₃⟩ := h₂.of_bind
    obtain ⟨_, d, hvalue, h₄⟩ := h₃.of_bind
    obtain ⟨_, x, hpop, h₅⟩ := h₄.of_bind
    obtain ⟨_, y, hend, h₆⟩ := h₅.of_bind
    obtain ⟨e, ts, he, hcompiled⟩ := expression_reads hvalue
    refine ⟨some e, _, .some he, ?_⟩
    unfold compileIncrement
    exact hbody.bind (hsize.bind (hcompiled.bind (hpop.bind
      ((cleanly_consume_iff_expect.mp hend).bind h₆))))

theorem returnStatement_reads
    (hword : Cleanly (expect (.keyword .returnWord) : Compile w.settings Unit) s () u)
    (h : Cleanly (returnStatement inner) u () t) :
    ∃ b ts, Statement.Spelled b ts ∧ Cleanly (b.compile : Compile w.settings Unit) s () t ∧
      (b.endsOpen = true → t.reader.current.kind ≠ .keyword .elseWord) := by
  unfold returnStatement at h
  dsimp only at h
  obtain ⟨f, a, hframe, h₁⟩ := h.of_bind
  by_cases hscript : f.kind = .script
  · rw [if_pos hscript] at h₁
    exact (not_cleanly_report_bind h₁).elim
  · rw [if_neg hscript] at h₁
    obtain ⟨found, b, hsemicolon, h₂⟩ := h₁.of_bind
    rcases cleanly_accept.mp hsemicolon with ⟨rfl, hnone⟩ | ⟨rfl, _, _, rfl⟩
    · refine ⟨.ret none, _, .ret .none, ?_, fun hends => by cases hends⟩
      unfold Statement.compile
      dsimp only
      refine hword.bind (hframe.bind ?_)
      rw [if_neg hscript]
      exact hnone.bind h₂
    · by_cases hinitializer : f.kind = .initializer
      · simp only [hinitializer, if_true] at h₂
        exact (not_cleanly_report_bind
          (show Cleanly (report .returnValueFromInitializer >>= fun _ => _) _ _ _ from h₂)).elim
      · simp only [hinitializer, if_false] at h₂
        obtain ⟨_, c, hvalue, h₃⟩ :=
          Cleanly.of_bind (show Cleanly (expression inner.budget >>= fun _ => _) _ _ _ from h₂)
        obtain ⟨_, d, hend, hret⟩ := h₃.of_bind
        obtain ⟨e, ts, he, hcompiled⟩ := expression_reads hvalue
        refine ⟨.ret (some e), _, .ret (.some he), ?_, fun hends => by cases hends⟩
        unfold Statement.compile
        dsimp only
        refine hword.bind (hframe.bind ?_)
        rw [if_neg hscript, if_neg hinitializer]
        exact hcompiled.bind ((cleanly_consume_iff_expect.mp hend).bind hret)

variable (hinner : ReadsInner inner) [Orderly inner.declaration] [Orderly inner.statement]

include hinner

omit [Orderly inner.statement] in
/-- A loop whose condition takes no tokens reads declarations until the condition stops it. -/
theorem declarations_read {condition : Compile w.settings Bool} [Orderly condition]
    (hgo : ∀ {s t : Session β}, Cleanly condition s true t → t = s) {fuel : Nat}
    (h : Cleanly (repeatWhile condition inner.declaration fuel) s () t) :
    ∃ ds ts u, Declaration.SpelledEach ds ts ∧
      Cleanly (Declaration.compileEach ds : Compile w.settings Unit) s () u ∧
      Cleanly condition u false t := by
  induction fuel generalizing s with
  | zero => exact (cleanly_throw h).elim
  | succ fuel ih =>
      rcases h.of_repeatWhile with hstop | ⟨a, b, hcondition, hstep, hrest⟩
      · refine ⟨[], [], s, .nil, ?_, hstop⟩
        unfold Declaration.compileEach
        exact cleanly_pure.mpr ⟨hstop.before, rfl, rfl⟩
      · obtain rfl := hgo hcondition
        obtain ⟨d, ts, hd, hcompiled⟩ := hinner.declaration hstep
        obtain ⟨ds, us, u, hds, hmore, hstop⟩ := ih hrest
        refine ⟨d :: ds, _, u, .cons hd hds, ?_, hstop⟩
        unfold Declaration.compileEach
        exact hcompiled.bind hmore

omit [Orderly inner.statement] in
theorem block_reads (h : Cleanly (block inner) s () t) :
    ∃ ds ts u, Declaration.SpelledEach ds ts ∧
      Cleanly (Declaration.compileEach ds : Compile w.settings Unit) s () u ∧
      Cleanly (expect .closeBrace : Compile w.settings Unit) u () t := by
  unfold block at h
  obtain ⟨_, u, hall, hclose⟩ := h.of_bind
  obtain ⟨ds, ts, v, hds, hcompiled, hstop⟩ :=
    declarations_read hinner (fun hgo => (cleanly_insideBraces.mp hgo).2.2) hall
  obtain ⟨_, _, rfl⟩ := cleanly_insideBraces.mp hstop
  exact ⟨ds, ts, _, hds, hcompiled, cleanly_consume_iff_expect.mp hclose⟩

omit [Orderly inner.declaration] in
theorem ifStatement_reads
    (hword : Cleanly (expect (.keyword .ifWord) : Compile w.settings Unit) s () u)
    (h : Cleanly (ifStatement inner) u () t) :
    ∃ b ts, Statement.Spelled b ts ∧ Cleanly (b.compile : Compile w.settings Unit) s () t ∧
      (b.endsOpen = true → t.reader.current.kind ≠ .keyword .elseWord) := by
  unfold ifStatement at h
  obtain ⟨_, a, hopen, h₁⟩ := h.of_bind
  obtain ⟨_, b, hvalue, h₂⟩ := h₁.of_bind
  obtain ⟨_, c, hclose, h₃⟩ := h₂.of_bind
  obtain ⟨otherwise, d, hjump, h₄⟩ := h₃.of_bind
  obtain ⟨_, x, hpop, h₅⟩ := h₄.of_bind
  obtain ⟨_, y, hbody, h₆⟩ := h₅.of_bind
  obtain ⟨done, z, hdone, h₇⟩ := h₆.of_bind
  obtain ⟨_, a', hpatch, h₈⟩ := h₇.of_bind
  obtain ⟨_, b', hdrop, h₉⟩ := h₈.of_bind
  obtain ⟨e, ts, he, hcondition⟩ := expression_reads hvalue
  obtain ⟨body, us, hbodySpelled, hbodyCompiled, hbodyEnd⟩ := hinner.statement hbody
  have hreader : b'.reader = y.reader := by
    rw [Still.reader_eq hdrop, Still.reader_eq hpatch, Still.reader_eq hdone]
  have hopens := cleanly_consume_iff_expect.mp hopen
  have hcloses := cleanly_consume_iff_expect.mp hclose
  obtain ⟨found, c', helse, hend⟩ := Cleanly.of_bind
    (show Cleanly (accept (.keyword .elseWord) >>= fun found =>
      if found then inner.statement >>= fun _ => patchJump done else patchJump done) _ _ _ from h₉)
  rcases cleanly_accept.mp helse with ⟨rfl, helseWord⟩ | ⟨rfl, hnot, _, rfl⟩
  · obtain ⟨_, d', hother, hpatchDone⟩ :=
      Cleanly.of_bind (show Cleanly (inner.statement >>= fun _ => _) _ _ _ from hend)
    obtain ⟨other, vs, hotherSpelled, hotherCompiled, hotherEnd⟩ := hinner.statement hother
    have hclosed : body.endsOpen = false := by
      cases hends : body.endsOpen with
      | false => rfl
      | true =>
          have hcurrent := helseWord.kind_of_expect
          rw [hreader] at hcurrent
          exact (hbodyEnd hends hcurrent).elim
    refine ⟨.ifElse e body other, _, .ifElse hclosed he hbodySpelled hotherSpelled, ?_, ?_⟩
    · unfold Statement.compile
      exact hword.bind (hopens.bind (hcondition.bind (hcloses.bind (hjump.bind (hpop.bind
        (hbodyCompiled.bind (hdone.bind (hpatch.bind (hdrop.bind (helseWord.bind
          (hotherCompiled.bind hpatchDone)))))))))))
    · rw [Still.reader_eq hpatchDone]
      exact hotherEnd
  · have hpatchDone : Cleanly (patchJump done : Compile w.settings Unit) c' () t := hend
    refine ⟨.ifThen e body, _, .ifThen he hbodySpelled, ?_, ?_⟩
    · unfold Statement.compile
      exact hword.bind (hopens.bind (hcondition.bind (hcloses.bind (hjump.bind (hpop.bind
        (hbodyCompiled.bind (hdone.bind (hpatch.bind (hdrop.bind hpatchDone)))))))))
    · rw [Still.reader_eq hpatchDone]
      exact fun _ => hnot

omit [Orderly inner.declaration] in
theorem whileStatement_reads
    (hword : Cleanly (expect (.keyword .whileWord) : Compile w.settings Unit) s () u)
    (h : Cleanly (whileStatement inner) u () t) :
    ∃ b ts, Statement.Spelled b ts ∧ Cleanly (b.compile : Compile w.settings Unit) s () t ∧
      (b.endsOpen = true → t.reader.current.kind ≠ .keyword .elseWord) := by
  unfold whileStatement at h
  obtain ⟨start, a, hstart, h₁⟩ := h.of_bind
  obtain ⟨_, b, hopen, h₂⟩ := h₁.of_bind
  obtain ⟨_, c, hvalue, h₃⟩ := h₂.of_bind
  obtain ⟨_, d, hclose, h₄⟩ := h₃.of_bind
  obtain ⟨exit, x, hjump, h₅⟩ := h₄.of_bind
  obtain ⟨_, y, hpop, h₆⟩ := h₅.of_bind
  obtain ⟨_, z, hbody, hend⟩ := h₆.of_bind
  obtain ⟨e, ts, he, hcondition⟩ := expression_reads hvalue
  obtain ⟨body, us, hbodySpelled, hbodyCompiled, hbodyEnd⟩ := hinner.statement hbody
  refine ⟨.whileLoop e body, _, .whileLoop he hbodySpelled, ?_, ?_⟩
  · unfold Statement.compile
    exact hword.bind (hstart.bind ((cleanly_consume_iff_expect.mp hopen).bind (hcondition.bind
      ((cleanly_consume_iff_expect.mp hclose).bind (hjump.bind (hpop.bind
        (hbodyCompiled.bind hend)))))))
  · rw [Still.reader_eq hend]
    exact hbodyEnd

omit [Orderly inner.declaration] in
theorem forStatement_reads
    (hword : Cleanly (expect (.keyword .forWord) : Compile w.settings Unit) s () u)
    (h : Cleanly (forStatement inner) u () t) :
    ∃ b ts, Statement.Spelled b ts ∧ Cleanly (b.compile : Compile w.settings Unit) s () t ∧
      (b.endsOpen = true → t.reader.current.kind ≠ .keyword .elseWord) := by
  rw [forStatement_eq] at h
  obtain ⟨_, a, hscope, h₁⟩ := h.of_bind
  obtain ⟨_, b, hopen, h₂⟩ := h₁.of_bind
  obtain ⟨_, c, hfirst, h₃⟩ := h₂.of_bind
  obtain ⟨start, d, hstart, h₄⟩ := h₃.of_bind
  obtain ⟨exit, x, hcondition, h₅⟩ := h₄.of_bind
  obtain ⟨next, y, hincrement, h₆⟩ := h₅.of_bind
  obtain ⟨_, z, hbody, hend⟩ := h₆.of_bind
  obtain ⟨first, ts, hfirstSpelled, hfirstCompiled⟩ := forInitializer_reads hfirst
  obtain ⟨condition, us, hconditionSpelled, hconditionCompiled⟩ := forCondition_reads hcondition
  obtain ⟨increment, vs, hincrementSpelled, hincrementCompiled⟩ := forIncrement_reads hincrement
  obtain ⟨body, ws, hbodySpelled, hbodyCompiled, hbodyEnd⟩ := hinner.statement hbody
  refine ⟨.forLoop first condition increment body, _,
    .forLoop hfirstSpelled hconditionSpelled hincrementSpelled hbodySpelled, ?_, ?_⟩
  · unfold Statement.compile
    exact hword.bind (hscope.bind ((cleanly_consume_iff_expect.mp hopen).bind
      (hfirstCompiled.bind (hstart.bind (hconditionCompiled.bind (hincrementCompiled.bind
        (hbodyCompiled.bind hend)))))))
  · rw [Still.reader_eq hend]
    exact hbodyEnd

theorem statementStep_reads (h : Cleanly (statementStep inner) s () t) :
    ∃ b ts, Statement.Spelled b ts ∧ Cleanly (b.compile : Compile w.settings Unit) s () t ∧
      (b.endsOpen = true → t.reader.current.kind ≠ .keyword .elseWord) := by
  unfold statementStep at h
  rw [cleanly_current_bind] at h
  split at h
  case h_1 hkind =>
    obtain ⟨_, u, hadvance, h₁⟩ := h.of_bind
    obtain ⟨_, a, hvalue, h₂⟩ := h₁.of_bind
    obtain ⟨_, b, hend, hprint⟩ := h₂.of_bind
    obtain ⟨e, ts, he, hcompiled⟩ := expression_reads hvalue
    refine ⟨.print e, _, .print he, ?_, fun hends => by cases hends⟩
    unfold Statement.compile
    exact (hadvance.expect_of_advance hkind).bind
      (hcompiled.bind ((cleanly_consume_iff_expect.mp hend).bind hprint))
  case h_2 hkind =>
    obtain ⟨_, u, hadvance, hrest⟩ := h.of_bind
    exact forStatement_reads hinner (hadvance.expect_of_advance hkind) hrest
  case h_3 hkind =>
    obtain ⟨_, u, hadvance, hrest⟩ := h.of_bind
    exact ifStatement_reads hinner (hadvance.expect_of_advance hkind) hrest
  case h_4 hkind =>
    obtain ⟨_, u, hadvance, hrest⟩ := h.of_bind
    exact returnStatement_reads (hadvance.expect_of_advance hkind) hrest
  case h_5 hkind =>
    obtain ⟨_, u, hadvance, hrest⟩ := h.of_bind
    exact whileStatement_reads hinner (hadvance.expect_of_advance hkind) hrest
  case h_6 hkind =>
    obtain ⟨_, u, hadvance, h₁⟩ := h.of_bind
    obtain ⟨_, a, hscope, h₂⟩ := h₁.of_bind
    obtain ⟨_, b, hblock, hend⟩ := h₂.of_bind
    obtain ⟨ds, ts, c, hds, hcompiled, hclose⟩ := block_reads hinner hblock
    refine ⟨.block ds, _, .block hds, ?_, fun hends => by cases hends⟩
    unfold Statement.compile
    exact (hadvance.expect_of_advance hkind).bind
      (hscope.bind (hcompiled.bind (hclose.bind hend)))
  case h_7 =>
    obtain ⟨e, ts, he, hcompiled⟩ := expressionStatement_reads h
    refine ⟨.expression e, _, .expression he, ?_, fun hends => by cases hends⟩
    unfold Statement.compile
    exact hcompiled

omit [Orderly inner.declaration] [Orderly inner.statement] hinner in
theorem parameterList_reads (h : Cleanly (parameterList inner) s () t) :
    ∃ names, Cleanly (do
      compileParameters names 0
      let arity := Limits.clamp w.limits.parameters names.length
      modifyFrame fun frame => { frame with arity } : Compile w.settings Unit) s () t := by
  have hparameter {count : Nat} {s t : Session β}
      (h : Cleanly (parameter count : Compile w.settings Unit) s () t) :
      ∃ name, Cleanly (compileParameters.compileParameter name count : Compile w.settings Unit)
        s () t := by
    unfold parameter at h
    rw [measure_bind] at h
    unfold compileParameters.compileParameter
    dsimp only at h ⊢
    cases hfits : Limits.admits w.limits.parameters (count + 1) with
    | false =>
        rw [hfits] at h
        obtain ⟨_, _, hreport, _⟩ := Cleanly.of_bind
          (show Cleanly (reportCurrent .tooManyParameters >>= fun _ => _) _ _ _ from h)
        exact (not_cleanly_reportCurrent hreport).elim
    | true =>
        rw [hfits] at h
        obtain ⟨index, u, hname, hdefine⟩ := Cleanly.of_bind
          (show Cleanly (declaredName "Expect parameter name." >>= defineVariable) _ _ _ from h)
        obtain ⟨name, hdeclared⟩ := declaredName_reads hname
        exact ⟨name, hdeclared.bind hdefine⟩
  have hseparated {fuel count n : Nat} {s t : Session β}
      (h : Cleanly (separated parameter fuel count : Compile w.settings Nat) s n t) :
      ∃ name names, n = count + (name :: names).length ∧
        Cleanly (compileParameters (name :: names) count : Compile w.settings Unit) s () t := by
    induction fuel generalizing s count with
    | zero => exact (cleanly_throw h).elim
    | succ fuel ih =>
        unfold separated at h
        obtain ⟨_, u, hfirst, h₁⟩ := h.of_bind
        obtain ⟨name, hname⟩ := hparameter hfirst
        obtain ⟨comma, v, haccept, h₂⟩ := h₁.of_bind
        rcases cleanly_accept.mp haccept with ⟨rfl, hcomma⟩ | ⟨rfl, _, _, rfl⟩
        · obtain ⟨name', names, hn, hrest⟩ := ih h₂
          refine ⟨name, name' :: names, ?_, ?_⟩
          · simp only [hn, List.length_cons]
            omega
          · unfold compileParameters
            exact hname.bind (hcomma.bind hrest)
        · obtain ⟨_, rfl, rfl⟩ := cleanly_pure.mp h₂
          refine ⟨name, [], rfl, ?_⟩
          unfold compileParameters
          exact hname
  unfold parameterList at h
  dsimp only at h
  rw [cleanly_check_bind] at h
  split at h
  · rw [pure_bind] at h
    refine ⟨[], ?_⟩
    unfold compileParameters
    exact (cleanly_pure.mpr ⟨h.before, rfl, rfl⟩).bind h
  · obtain ⟨count, u, hall, hmodify⟩ := h.of_bind
    obtain ⟨name, names, rfl, hcompiled⟩ := hseparated hall
    rw [Nat.zero_add] at hmodify
    exact ⟨name :: names, hcompiled.bind hmodify⟩

omit [Orderly inner.statement] in
/-- A function is read after its name. -/
theorem function_reads {kind : FunctionKind} {name : Symbol}
    (hname : s.reader.previous.kind = .identifier name)
    (h : Cleanly (function inner kind) s () t) :
    ∃ f ts, f.name = name ∧ FunctionTree.Spelled f (.identifier name :: ts) ∧
      Cleanly (FunctionTree.compile kind f : Compile w.settings Unit) s () t := by
  rw [function_eq, cleanly_previousName_bind hname] at h
  obtain ⟨_, a, hbegin, h₁⟩ := h.of_bind
  obtain ⟨_, b, hscope, h₂⟩ := h₁.of_bind
  obtain ⟨_, c, hopen, h₃⟩ := h₂.of_bind
  obtain ⟨_, d, hparameters, h₄⟩ := h₃.of_bind
  obtain ⟨_, x, hclose, h₅⟩ := h₄.of_bind
  obtain ⟨_, y, hbrace, h₆⟩ := h₅.of_bind
  obtain ⟨_, z, hblock, hend⟩ := h₆.of_bind
  obtain ⟨names, hnames⟩ := parameterList_reads hparameters
  obtain ⟨_, d', hcompiled, harity⟩ := hnames.of_bind
  obtain ⟨ds, ts, z', hds, hbody, hbodyEnd⟩ := block_reads hinner hblock
  refine ⟨.mk name names ds, _, rfl, .mk hds, ?_⟩
  unfold FunctionTree.compile
  exact hbegin.bind (hscope.bind ((cleanly_consume_iff_expect.mp hopen).bind (hcompiled.bind
    (harity.bind ((cleanly_consume_iff_expect.mp hclose).bind
      ((cleanly_consume_iff_expect.mp hbrace).bind (hbody.bind (hbodyEnd.bind hend))))))))

omit [Orderly inner.statement] in
theorem funDeclaration_reads
    (hword : Cleanly (expect (.keyword .funWord) : Compile w.settings Unit) s () u)
    (h : Cleanly (funDeclaration inner) u () t) :
    ∃ d ts, Declaration.Spelled d ts ∧ Cleanly (d.compile : Compile w.settings Unit) s () t := by
  unfold funDeclaration at h
  obtain ⟨index, a, hname, h₁⟩ := h.of_bind
  obtain ⟨_, b, hmark, h₂⟩ := h₁.of_bind
  obtain ⟨_, c, hfunction, hdefine⟩ := h₂.of_bind
  obtain ⟨name, hdeclared⟩ := declaredName_reads hname
  have hlast : b.reader.previous.kind = .identifier name := by
    rw [Still.reader_eq hmark]
    exact hdeclared.previous_of_declareNamed
  obtain ⟨f, ts, rfl, hspelled, hcompiled⟩ := function_reads hinner hlast hfunction
  refine ⟨.funDeclaration f, _, .funDeclaration hspelled, ?_⟩
  unfold Declaration.compile
  exact hword.bind (hdeclared.bind (hmark.bind (hcompiled.bind hdefine)))

omit [Orderly inner.statement] in
theorem methods_read {fuel : Nat}
    (h : Cleanly (repeatWhile insideBraces (method inner) fuel) s () t) :
    ∃ fs ts, FunctionTree.SpelledEach fs ts ∧
      Cleanly (FunctionTree.compileMethods fs : Compile w.settings Unit) s () t := by
  induction fuel generalizing s with
  | zero => exact (cleanly_throw h).elim
  | succ fuel ih =>
      rcases h.of_repeatWhile with hstop | ⟨a, b, hgo, hstep, hrest⟩
      · obtain ⟨hs, _, rfl⟩ := cleanly_insideBraces.mp hstop
        refine ⟨[], [], .nil, ?_⟩
        unfold FunctionTree.compileMethods
        exact cleanly_pure.mpr ⟨hs, rfl, rfl⟩
      · obtain ⟨_, _, rfl⟩ := cleanly_insideBraces.mp hgo
        obtain ⟨fs, us, hfs, hmore⟩ := ih hrest
        unfold method at hstep
        dsimp only at hstep
        obtain ⟨name, c, hname, h₁⟩ := hstep.of_bind
        obtain ⟨constant, d, hconstant, h₂⟩ := h₁.of_bind
        rw [cleanly_read_bind] at h₂
        obtain ⟨_, x, hfunction, hmethod⟩ := h₂.of_bind
        have hidentifier := cleanly_consumeIdentifier.mp hname
        have hlast : d.reader.previous.kind = .identifier name := by
          rw [Still.reader_eq hconstant]
          exact hidentifier.previous_of_expect
        obtain ⟨f, ts, rfl, hspelled, hcompiled⟩ := function_reads hinner hlast hfunction
        refine ⟨f :: fs, _, .cons hspelled hfs, ?_⟩
        unfold FunctionTree.compileMethods
        exact hidentifier.bind (hconstant.bind (cleanly_read_bind.mpr (hcompiled.bind
          (hmethod.bind hmore))))

omit [Orderly inner.statement] in
theorem classBody_reads {name : Symbol} (h : Cleanly (classBody inner name) s () t) :
    ∃ fs ts, FunctionTree.SpelledEach fs ts ∧
      Cleanly (compileClassBody name (FunctionTree.compileMethods fs) : Compile w.settings Unit)
        s () t := by
  unfold classBody at h
  obtain ⟨_, a, hload, h₁⟩ := h.of_bind
  obtain ⟨_, b, hopen, h₂⟩ := h₁.of_bind
  obtain ⟨_, c, hmethods, h₃⟩ := h₂.of_bind
  obtain ⟨_, d, hclose, hend⟩ := h₃.of_bind
  obtain ⟨fs, ts, hfs, hcompiled⟩ := methods_read hinner hmethods
  exact ⟨fs, ts, hfs, hload.bind ((cleanly_consume_iff_expect.mp hopen).bind
    (hcompiled.bind ((cleanly_consume_iff_expect.mp hclose).bind hend)))⟩

omit [Orderly inner.statement] in
theorem classDeclaration_reads
    (hword : Cleanly (expect (.keyword .classWord) : Compile w.settings Unit) s () u)
    (h : Cleanly (classDeclaration inner) u () t) :
    ∃ d ts, Declaration.Spelled d ts ∧ Cleanly (d.compile : Compile w.settings Unit) s () t := by
  rw [classDeclaration_eq] at h
  obtain ⟨name, a, hname, h₁⟩ := h.of_bind
  obtain ⟨constant, b, hconstant, h₂⟩ := h₁.of_bind
  obtain ⟨_, c, hdeclare, h₃⟩ := h₂.of_bind
  obtain ⟨_, d, hmake, h₄⟩ := h₃.of_bind
  obtain ⟨_, x, hdefine, h₅⟩ := h₄.of_bind
  obtain ⟨_, y, hbegin, h₆⟩ := h₅.of_bind
  obtain ⟨found, z, hless, h₇⟩ := h₆.of_bind
  have hall {superclass : Option Symbol} {v : Session β}
      (hsuper : Cleanly (compileSuperclass name superclass : Compile w.settings Unit) y () v)
      (hrest : Cleanly (classBody inner name) v () t) :
      ∃ d ts, Declaration.Spelled d ts ∧
        Cleanly (d.compile : Compile w.settings Unit) s () t := by
    obtain ⟨fs, ts, hfs, hcompiled⟩ := classBody_reads hinner hrest
    refine ⟨.classDeclaration name superclass fs, _, .classDeclaration hfs, ?_⟩
    unfold Declaration.compile
    exact hword.bind ((cleanly_consumeIdentifier.mp hname).bind (hconstant.bind
      (hdeclare.bind (hmake.bind (hdefine.bind (hbegin.bind (hsuper.bind hcompiled)))))))
  rcases cleanly_accept.mp hless with ⟨rfl, htoken⟩ | ⟨rfl, _, _, rfl⟩
  · obtain ⟨_, x', hclause, hrest⟩ :=
      Cleanly.of_bind (show Cleanly (superclassClause name >>= fun _ => _) _ _ _ from h₇)
    unfold superclassClause at hclause
    obtain ⟨superclass, y', hsuperclass, hinherit⟩ := hclause.of_bind
    have hsuper : Cleanly (compileSuperclass name (some superclass) : Compile w.settings Unit)
        y () x' := by
      unfold compileSuperclass
      exact htoken.bind ((cleanly_consumeIdentifier.mp hsuperclass).bind hinherit)
    exact hall hsuper hrest
  · have hnone : Cleanly (compileSuperclass name none : Compile w.settings Unit) z () z := by
      unfold compileSuperclass
      exact cleanly_pure.mpr ⟨h₇.before, rfl, rfl⟩
    exact hall hnone h₇

theorem declarationStep_reads (h : Cleanly (declarationStep inner) s () t) :
    ∃ d ts, Declaration.Spelled d ts ∧ Cleanly (d.compile : Compile w.settings Unit) s () t := by
  have hrecover {m : Compile w.settings Unit} [Orderly m] {a : Session β}
      (h : Cleanly (do m; recover) a () t) : Cleanly m a () t := by
    obtain ⟨_, b, hm, hrest⟩ := h.of_bind
    obtain ⟨_, rfl⟩ := cleanly_recover.mp hrest
    exact hm
  unfold declarationStep at h
  dsimp only at h
  obtain ⟨found, a, hclass, h₁⟩ := h.of_bind
  rcases cleanly_accept.mp hclass with ⟨rfl, hword⟩ | ⟨rfl, _, _, rfl⟩
  · exact classDeclaration_reads hinner hword (hrecover h₁)
  · obtain ⟨found, b, hfun, h₂⟩ := Cleanly.of_bind
      (show Cleanly (accept (.keyword .funWord) >>= fun _ => _) _ _ _ from h₁)
    rcases cleanly_accept.mp hfun with ⟨rfl, hword⟩ | ⟨rfl, _, _, rfl⟩
    · exact funDeclaration_reads hinner hword (hrecover h₂)
    · obtain ⟨found, c, hvar, h₃⟩ := Cleanly.of_bind
        (show Cleanly (accept (.keyword .varWord) >>= fun _ => _) _ _ _ from h₂)
      rcases cleanly_accept.mp hvar with ⟨rfl, hword⟩ | ⟨rfl, _, _, rfl⟩
      · obtain ⟨name, value, ts, hspelled, hcompiled⟩ := varDeclaration_reads (hrecover h₃)
        refine ⟨.varDeclaration name value, _, .varDeclaration hspelled, ?_⟩
        unfold Declaration.compile
        exact hword.bind hcompiled
      · obtain ⟨st, ts, hspelled, hcompiled, _⟩ := statementStep_reads hinner (hrecover h₃)
        refine ⟨.statement st, _, .statement hspelled, ?_⟩
        unfold Declaration.compile
        exact hcompiled

end Inner

/-- What stands inside a declaration is read as trees, whatever the budget. -/
theorem readsInner_of_budget (budget fuel : Nat) :
    ReadsInner (⟨declaration budget, statement budget, fuel⟩ : Inner w.settings) := by
  induction budget generalizing fuel with
  | zero =>
      constructor
      · exact fun h => (cleanly_throw h).elim
      · exact fun h => (cleanly_throw h).elim
  | succ budget ih =>
      let inner : Inner w.settings := ⟨declaration budget, statement budget, budget + 1⟩
      have hdeclaration : Orderly inner.declaration :=
        inferInstanceAs (Orderly (declaration budget : Compile w.settings Unit))
      have hstatement : Orderly inner.statement :=
        inferInstanceAs (Orderly (statement budget : Compile w.settings Unit))
      constructor
      · intro s t h
        exact declarationStep_reads (ih (budget + 1))
          (show Cleanly (declarationStep inner) s () t from ⟨h.before, h.run, h.after⟩)
      · intro s t h
        exact statementStep_reads (ih (budget + 1))
          (show Cleanly (statementStep inner) s () t from ⟨h.before, h.run, h.after⟩)

/-- A script that is read cleanly is a program. -/
theorem script_reads {budget : Nat} {s t : Session β} {f : Function β}
    (h : Cleanly (script budget : Compile w.settings (Function β)) s f t) :
    ∃ ds ts, Declaration.SpelledEach ds ts ∧
      Cleanly (Declaration.compileProgram ds : Compile w.settings (Function β)) s f t := by
  have hgo {s t : Session β}
      (h : Cleanly (return !(← accept .endOfInput) : Compile w.settings Bool) s true t) :
      t = s := by
    obtain ⟨found, _, haccept, hanswer⟩ := h.of_bind
    obtain ⟨_, hfound, rfl⟩ := cleanly_pure.mp hanswer
    rcases cleanly_accept.mp haccept with ⟨rfl, _⟩ | ⟨rfl, _, _, rfl⟩
    · cases hfound
    · rfl
  have hend {s t : Session β}
      (h : Cleanly (return !(← accept .endOfInput) : Compile w.settings Bool) s false t) :
      Cleanly (expect .endOfInput : Compile w.settings Unit) s () t := by
    obtain ⟨found, _, haccept, hanswer⟩ := h.of_bind
    obtain ⟨_, hfound, rfl⟩ := cleanly_pure.mp hanswer
    rcases cleanly_accept.mp haccept with ⟨rfl, hend⟩ | ⟨rfl, _⟩
    · exact hend
    · cases hfound
  unfold script at h
  obtain ⟨_, u, hall, hfinish⟩ := h.of_bind
  obtain ⟨ds, ts, v, hds, hcompiled, hstop⟩ :=
    declarations_read (readsInner_of_budget budget 0) hgo hall
  refine ⟨ds, ts, hds, ?_⟩
  unfold Declaration.compileProgram
  exact hcompiled.bind ((hend hstop).bind hfinish)

end LoxCompiler.Compile
