import LoxCompiler.Proofs.Parsing.DeclarationSound
import LoxCompiler.Proofs.Parsing.ExpressionComplete

/-! # Trees are read as declarations

Whenever the tree of a declaration or statement compiles cleanly, the parser runs cleanly too,
and does the same, provided that no `else` follows a statement that would take it. The number of
tokens left is enough of a budget, since everything that can be nested takes a token.
-/

set_option synthInstance.maxSize 4096

namespace LoxCompiler.Compile

variable {β : Type} {w : Width β} {s t u : Session β}

/-! ## First tokens -/

/-- The first token of a statement starts no declaration and ends nothing. -/
theorem first_statement {b : Statement} {ts : List Kind} (hb : Statement.Spelled b ts)
    (h : Cleanly (b.compile : Compile w.settings Unit) s () t) :
    s.reader.current.kind ∉ [.keyword .classWord, .keyword .funWord, .keyword .varWord,
      .keyword .elseWord, .closeBrace, .endOfInput] := by
  have htoken {kind : Kind} {γ : Type} {k : Unit → Compile w.settings γ} {b : γ}
      [∀ a, Orderly (k a)] (hall : Cleanly (expect kind >>= k) s b t) :
      s.reader.current.kind = kind := by
    obtain ⟨_, v, hfirst, _⟩ := hall.of_bind
    exact hfirst.kind_of_expect
  cases hb with
  | expression he =>
      unfold Statement.compile at h
      obtain ⟨_, v, hvalue, _⟩ := h.of_bind
      obtain ⟨leading, hleading⟩ := leading_expression he hvalue
      intro hmem
      simp only [List.mem_cons, List.not_mem_nil, or_false] at hmem
      rcases hmem with hkind | hkind | hkind | hkind | hkind | hkind <;>
        rw [hkind] at hleading <;> cases hleading
  | print _ | ifThen _ _ | ifElse _ _ _ _ | whileLoop _ _ | forLoop _ _ _ _ | block _ =>
      unfold Statement.compile at h
      rw [htoken h]
      simp
  | ret he =>
      cases he <;>
      · unfold Statement.compile at h
        rw [htoken h]
        simp

theorem first_declaration {d : Declaration} {ts : List Kind} (hd : Declaration.Spelled d ts)
    (h : Cleanly (d.compile : Compile w.settings Unit) s () t) :
    s.reader.current.kind ∉ [.keyword .elseWord, .closeBrace, .endOfInput] := by
  cases hd with
  | statement hb =>
      unfold Declaration.compile at h
      have hfirst := first_statement hb h
      simp only [List.mem_cons, List.not_mem_nil, or_false, not_or] at hfirst ⊢
      exact hfirst.2.2.2
  | classDeclaration _ | funDeclaration _ | varDeclaration _ =>
      unfold Declaration.compile at h
      obtain ⟨_, v, hfirst, _⟩ := h.of_bind
      rw [hfirst.kind_of_expect]
      simp

/-- No declarations start with an else. -/
theorem not_else_of_compileEach {ds : List Declaration} {ts : List Kind}
    (hds : Declaration.SpelledEach ds ts)
    (h : Cleanly (Declaration.compileEach ds : Compile w.settings Unit) s () t)
    (hend : t.reader.current.kind ≠ .keyword .elseWord) :
    s.reader.current.kind ≠ .keyword .elseWord := by
  cases hds with
  | nil =>
      unfold Declaration.compileEach at h
      obtain ⟨_, _, rfl⟩ := cleanly_pure.mp h
      exact hend
  | cons hd _ =>
      unfold Declaration.compileEach at h
      obtain ⟨_, _, hfirst, _⟩ := h.of_bind
      have hstart := first_declaration hd hfirst
      simp only [List.mem_cons, List.not_mem_nil, or_false, not_or] at hstart
      exact hstart.1

/-- What starts a declaration is inside the braces. -/
theorem insideBraces_before (hs : s.reader.Quiet)
    (hstart : s.reader.current.kind ∉ [.keyword .elseWord, .closeBrace, .endOfInput]) :
    Cleanly (insideBraces : Compile w.settings Bool) s true s := by
  simp only [List.mem_cons, List.not_mem_nil, or_false, not_or] at hstart
  exact cleanly_insideBraces.mpr ⟨hs, by simp [Reader.check, hstart.2.1, hstart.2.2], rfl⟩

theorem remaining_statement {b : Statement} {ts : List Kind} (hb : Statement.Spelled b ts)
    (h : Cleanly (b.compile : Compile w.settings Unit) s () t) :
    t.reader.remaining < s.reader.remaining := by
  have htoken {kind : Kind} {γ : Type} {k : Unit → Compile w.settings γ} {b : γ}
      [∀ a, Orderly (k a)] (hall : Cleanly (expect kind >>= k) s b t)
      (hkind : kind ≠ .endOfInput) : t.reader.remaining < s.reader.remaining := by
    obtain ⟨_, v, hfirst, hrest⟩ := hall.of_bind
    exact Nat.lt_of_le_of_lt hrest.remaining_le (hfirst.remaining_of_expect hkind)
  cases hb with
  | expression he =>
      unfold Statement.compile at h
      obtain ⟨_, v, hvalue, hrest⟩ := h.of_bind
      exact Nat.lt_of_le_of_lt hrest.remaining_le (remaining_expression _ hvalue)
  | print _ | ifThen _ _ | ifElse _ _ _ _ | whileLoop _ _ | forLoop _ _ _ _ | block _ =>
      unfold Statement.compile at h
      exact htoken h (by nofun)
  | ret he =>
      cases he <;>
      · unfold Statement.compile at h
        exact htoken h (by nofun)

theorem remaining_declaration {d : Declaration} {ts : List Kind} (hd : Declaration.Spelled d ts)
    (h : Cleanly (d.compile : Compile w.settings Unit) s () t) :
    t.reader.remaining < s.reader.remaining := by
  cases hd with
  | statement hb =>
      unfold Declaration.compile at h
      exact remaining_statement hb h
  | classDeclaration _ | funDeclaration _ | varDeclaration _ =>
      unfold Declaration.compile at h
      obtain ⟨_, v, hfirst, hrest⟩ := h.of_bind
      exact Nat.lt_of_le_of_lt hrest.remaining_le (hfirst.remaining_of_expect (by nofun))

/-- What stands inside a statement or declaration accepts all trees, if there are few enough
tokens left. -/
structure AcceptsInner (n : Nat) (inner : Inner w.settings) : Prop where
  budget : n < inner.budget
  declaration : ∀ {d ts} {s t : Session β}, Declaration.Spelled d ts →
    Cleanly (d.compile : Compile w.settings Unit) s () t →
    t.reader.current.kind ≠ .keyword .elseWord → s.reader.remaining ≤ n →
    Cleanly inner.declaration s () t
  statement : ∀ {b ts} {s t : Session β}, Statement.Spelled b ts →
    Cleanly (b.compile : Compile w.settings Unit) s () t →
    (b.endsOpen = true → t.reader.current.kind ≠ .keyword .elseWord) →
    s.reader.remaining ≤ n → Cleanly inner.statement s () t

section Inner

variable {n : Nat} {inner : Inner w.settings}

theorem declaredName_accepts {message : String} {name : Symbol} {index : Nat}
    (h : Cleanly (declareNamed name : Compile w.settings Nat) s index t) :
    Cleanly (declaredName message : Compile w.settings Nat) s index t := by
  unfold declareNamed at h
  obtain ⟨_, u, hname, hrest⟩ := h.of_bind
  unfold declaredName
  exact (cleanly_consumeIdentifier.mpr hname).bind hrest

theorem varDeclaration_accepts {name : Symbol} {value : Option Expression} {ts : List Kind}
    (hspelled : Declaration.VariableSpelled name value ts)
    (h : Cleanly (compileVariable name value : Compile w.settings Unit) s () t)
    (hbudget : s.reader.remaining ≤ inner.budget) : Cleanly (varDeclaration inner) s () t := by
  unfold compileVariable at h
  obtain ⟨index, a, hdeclared, h₁⟩ := h.of_bind
  obtain ⟨_, b, hinitial, h₂⟩ := h₁.of_bind
  obtain ⟨_, c, hsemicolon, hdefine⟩ := h₂.of_bind
  have hname : Cleanly (declaredName "Expect variable name." : Compile w.settings Nat) s index a :=
    declaredName_accepts hdeclared
  have hle := hdeclared.remaining_le
  have hend : Cleanly (do
      consume .semicolon "Expect ';' after variable declaration."
      defineVariable index : Compile w.settings Unit) b () t :=
    (cleanly_consume_iff_expect.mpr hsemicolon).bind hdefine
  unfold varDeclaration
  refine hname.bind ?_
  cases hspelled with
  | bare =>
      have hnil : Cleanly (emit .pushNil : Compile w.settings Unit) a () b := hinitial
      have hnone : Cleanly (accept (.operator .assign) : Compile w.settings Bool) a false a := by
        refine cleanly_accept.mpr (.inr ⟨rfl, ?_, hnil.before, rfl⟩)
        rw [← Still.reader_eq hnil, hsemicolon.kind_of_expect]
        nofun
      exact hnone.bind (hnil.bind hend)
  | initial he =>
      obtain ⟨_, d, hassign, hcompiled⟩ :=
        Cleanly.of_bind (show Cleanly (expect (.operator .assign) >>= fun _ => _) _ _ _ from hinitial)
      have hsome : Cleanly (accept (.operator .assign) : Compile w.settings Bool) a true d :=
        cleanly_accept.mpr (.inl ⟨rfl, hassign⟩)
      have hle' := hassign.remaining_le
      have hvalue := expression_accepts _ he hcompiled hsemicolon.kind_of_expect rfl (by nofun)
        (Nat.le_trans hle' (Nat.le_trans hle hbudget))
      exact hsome.bind (hvalue.bind hend)

theorem expressionStatement_accepts {e : Expression} {ts : List Kind}
    (he : Expression.Spelled .assignment e ts)
    (h : Cleanly (do
      e.compile
      expect .semicolon
      emit .pop : Compile w.settings Unit) s () t)
    (hbudget : s.reader.remaining ≤ inner.budget) :
    Cleanly (expressionStatement inner) s () t := by
  obtain ⟨_, a, hcompiled, h₁⟩ := h.of_bind
  obtain ⟨_, b, hsemicolon, hpop⟩ := h₁.of_bind
  have hvalue :=
    expression_accepts _ he hcompiled hsemicolon.kind_of_expect rfl (by nofun) hbudget
  exact hvalue.bind ((cleanly_consume_iff_expect.mpr hsemicolon).bind hpop)

/-- An expression never starts with a token that starts none. -/
theorem refuses_of_expression {e : Expression} {ts : List Kind} {kind : Kind}
    (he : Expression.Spelled .assignment e ts)
    (h : Cleanly (e.compile : Compile w.settings Unit) s () t)
    (hkind : (Rule.ofKind kind).leading = none) :
    Cleanly (accept kind : Compile w.settings Bool) s false s := by
  obtain ⟨leading, hleading⟩ := leading_expression he h
  refine cleanly_accept.mpr (.inr ⟨rfl, ?_, h.before, rfl⟩)
  intro heq
  rw [heq, hkind] at hleading
  cases hleading

theorem forInitializer_accepts {first : Initializer} {ts : List Kind}
    (hspelled : Initializer.Spelled first ts)
    (h : Cleanly (first.compile : Compile w.settings Unit) s () t)
    (hbudget : s.reader.remaining ≤ inner.budget) : Cleanly (forInitializer inner) s () t := by
  unfold Initializer.compile at h
  unfold forInitializer
  match hspelled with
  | .absent =>
      have hsome : Cleanly (accept .semicolon : Compile w.settings Bool) s true t :=
        cleanly_accept.mpr (.inl ⟨rfl, h⟩)
      exact hsome.bind (cleanly_pure.mpr ⟨h.after, rfl, rfl⟩)
  | .variable hvariable =>
      obtain ⟨_, a, hword, hcompiled⟩ := h.of_bind
      have hnone : Cleanly (accept .semicolon : Compile w.settings Bool) s false s := by
        refine cleanly_accept.mpr (.inr ⟨rfl, ?_, h.before, rfl⟩)
        rw [hword.kind_of_expect]
        nofun
      have hsome : Cleanly (accept (.keyword .varWord) : Compile w.settings Bool) s true a :=
        cleanly_accept.mpr (.inl ⟨rfl, hword⟩)
      exact hnone.bind (hsome.bind
        (varDeclaration_accepts hvariable hcompiled (Nat.le_trans hword.remaining_le hbudget)))
  | .expression he =>
      obtain ⟨_, a, hcompiled, _⟩ := h.of_bind
      exact (refuses_of_expression he hcompiled rfl).bind
        ((refuses_of_expression he hcompiled rfl).bind (expressionStatement_accepts he h hbudget))

theorem forCondition_accepts {condition : Option Expression} {ts : List Kind} {exit : Option Nat}
    (hspelled : Expression.SpelledOption condition ts)
    (h : Cleanly (compileCondition condition : Compile w.settings (Option Nat)) s exit t)
    (hbudget : s.reader.remaining ≤ inner.budget) : Cleanly (forCondition inner) s exit t := by
  unfold compileCondition at h
  unfold forCondition
  cases hspelled with
  | none =>
      obtain ⟨_, a, hsemicolon, hanswer⟩ := h.of_bind
      have hsome : Cleanly (accept .semicolon : Compile w.settings Bool) s true a :=
        cleanly_accept.mpr (.inl ⟨rfl, hsemicolon⟩)
      exact hsome.bind hanswer
  | some he =>
      obtain ⟨_, a, hcompiled, h₁⟩ := h.of_bind
      obtain ⟨_, b, hsemicolon, h₂⟩ := h₁.of_bind
      have hvalue :=
        expression_accepts _ he hcompiled hsemicolon.kind_of_expect rfl (by nofun) hbudget
      exact (refuses_of_expression he hcompiled rfl).bind
        (hvalue.bind ((cleanly_consume_iff_expect.mpr hsemicolon).bind h₂))

theorem forIncrement_accepts {increment : Option Expression} {ts : List Kind} {start next : Nat}
    (hspelled : Expression.SpelledOption increment ts)
    (h : Cleanly (compileIncrement start increment : Compile w.settings Nat) s next t)
    (hbudget : s.reader.remaining ≤ inner.budget) :
    Cleanly (forIncrement inner start) s next t := by
  unfold compileIncrement at h
  unfold forIncrement
  cases hspelled with
  | none =>
      obtain ⟨_, a, hclose, hanswer⟩ := h.of_bind
      have hsome : Cleanly (accept .closeParen : Compile w.settings Bool) s true a :=
        cleanly_accept.mpr (.inl ⟨rfl, hclose⟩)
      exact hsome.bind hanswer
  | some he =>
      obtain ⟨body, a, hbody, h₁⟩ := h.of_bind
      obtain ⟨size, b, hsize, h₂⟩ := h₁.of_bind
      obtain ⟨_, c, hcompiled, h₃⟩ := h₂.of_bind
      obtain ⟨_, d, hpop, h₄⟩ := h₃.of_bind
      obtain ⟨_, x, hclose, h₅⟩ := h₄.of_bind
      have hstart : b.reader = s.reader := by rw [Still.reader_eq hsize, Still.reader_eq hbody]
      have hend : c.reader.current.kind = .closeParen := by
        rw [← Still.reader_eq hpop]
        exact hclose.kind_of_expect
      have hvalue := expression_accepts _ he hcompiled hend rfl (by nofun) (hstart ▸ hbudget)
      have hnone : Cleanly (accept .closeParen : Compile w.settings Bool) s false s := by
        obtain ⟨leading, hleading⟩ := leading_expression he hcompiled
        refine cleanly_accept.mpr (.inr ⟨rfl, ?_, h.before, rfl⟩)
        intro heq
        rw [hstart, heq] at hleading
        cases hleading
      exact hnone.bind (hbody.bind (hsize.bind (hvalue.bind (hpop.bind
        ((cleanly_consume_iff_expect.mpr hclose).bind h₅)))))

theorem returnStatement_accepts {value : Option Expression} {ts : List Kind}
    (hspelled : Expression.SpelledOption value ts)
    (hword : Cleanly (expect (.keyword .returnWord) : Compile w.settings Unit) s () u)
    (h : Cleanly ((Statement.ret value).compile : Compile w.settings Unit) s () t)
    (hbudget : u.reader.remaining ≤ inner.budget) : Cleanly (returnStatement inner) u () t := by
  unfold returnStatement
  dsimp only
  cases hspelled with
  | none =>
      unfold Statement.compile at h
      dsimp only at h
      obtain ⟨_, u', hword', h₁⟩ := h.of_bind
      obtain ⟨_, rfl⟩ := hword.unique hword'
      obtain ⟨f, a, hframe, h₂⟩ := h₁.of_bind
      by_cases hscript : f.kind = .script
      · rw [if_pos hscript] at h₂
        exact (not_cleanly_report_bind h₂).elim
      · rw [if_neg hscript] at h₂
        obtain ⟨_, b, hsemicolon, hreturn⟩ := h₂.of_bind
        have hsome : Cleanly (accept .semicolon : Compile w.settings Bool) a true b :=
          cleanly_accept.mpr (.inl ⟨rfl, hsemicolon⟩)
        refine hframe.bind ?_
        rw [if_neg hscript]
        exact hsome.bind hreturn
  | some he =>
      unfold Statement.compile at h
      dsimp only at h
      obtain ⟨_, u', hword', h₁⟩ := h.of_bind
      obtain ⟨_, rfl⟩ := hword.unique hword'
      obtain ⟨f, a, hframe, h₂⟩ := h₁.of_bind
      by_cases hscript : f.kind = .script
      · rw [if_pos hscript] at h₂
        exact (not_cleanly_report_bind h₂).elim
      · rw [if_neg hscript] at h₂
        by_cases hinitializer : f.kind = .initializer
        · rw [if_pos hinitializer] at h₂
          exact (not_cleanly_report_bind h₂).elim
        · rw [if_neg hinitializer] at h₂
          obtain ⟨_, b, hcompiled, h₃⟩ := h₂.of_bind
          obtain ⟨_, c, hsemicolon, hret⟩ := h₃.of_bind
          have hreader := Still.reader_eq hframe
          have hvalue := expression_accepts inner.budget he hcompiled
            hsemicolon.kind_of_expect rfl (by nofun) (hreader ▸ hbudget)
          refine hframe.bind ?_
          rw [if_neg hscript]
          refine (refuses_of_expression he hcompiled rfl).bind ?_
          simp only [hinitializer, if_false]
          exact hvalue.bind ((cleanly_consume_iff_expect.mpr hsemicolon).bind hret)

variable (hinner : AcceptsInner n inner)

include hinner

/-- A loop takes declarations until its condition stops it, which it does not before one. -/
theorem declarations_accepted {condition : Compile w.settings Bool}
    (hgo : ∀ {s : Session β}, s.reader.Quiet →
      s.reader.current.kind ∉ [.keyword .elseWord, .closeBrace, .endOfInput] →
        Cleanly condition s true s)
    {ds : List Declaration} {ts : List Kind} {fuel : Nat}
    (hds : Declaration.SpelledEach ds ts)
    (h : Cleanly (Declaration.compileEach ds : Compile w.settings Unit) s () u)
    (hstop : Cleanly condition u false t) (hend : u.reader.current.kind ≠ .keyword .elseWord)
    (hn : s.reader.remaining ≤ n) (hfuel : s.reader.remaining < fuel) :
    Cleanly (repeatWhile condition inner.declaration fuel) s () t := by
  induction ds generalizing ts fuel s with
  | nil =>
      unfold Declaration.compileEach at h
      obtain ⟨_, _, rfl⟩ := cleanly_pure.mp h
      exact hstop.repeatWhile_stop (by omega)
  | cons d ds ih =>
      cases hds with
      | cons hd hrest =>
          unfold Declaration.compileEach at h
          obtain ⟨_, a, hfirst, hmore⟩ := h.of_bind
          have hless := remaining_declaration hd hfirst
          have helse := not_else_of_compileEach hrest hmore hend
          exact (hgo h.before (first_declaration hd hfirst)).repeatWhile_again
            (hinner.declaration hd hfirst helse hn) (by omega)
            (ih hrest hmore (by omega) (by omega))

theorem block_accepts {ds : List Declaration} {ts : List Kind}
    (hds : Declaration.SpelledEach ds ts)
    (h : Cleanly (Declaration.compileEach ds : Compile w.settings Unit) s () u)
    (hclose : Cleanly (expect .closeBrace : Compile w.settings Unit) u () t)
    (hn : s.reader.remaining ≤ n) : Cleanly (block inner) s () t := by
  have hstop : Cleanly (insideBraces : Compile w.settings Bool) u false u :=
    cleanly_insideBraces.mpr ⟨h.after, by simp [Reader.check, hclose.kind_of_expect], rfl⟩
  have hloop := declarations_accepted hinner insideBraces_before hds h hstop
    (by rw [hclose.kind_of_expect]; nofun) hn (Nat.lt_of_le_of_lt hn hinner.budget)
  exact hloop.bind (cleanly_consume_iff_expect.mpr hclose)

theorem ifThen_accepts {e : Expression} {body : Statement} {ts us : List Kind}
    (he : Expression.Spelled .assignment e ts) (hbody : Statement.Spelled body us)
    (hword : Cleanly (expect (.keyword .ifWord) : Compile w.settings Unit) s () u)
    (h : Cleanly ((Statement.ifThen e body).compile : Compile w.settings Unit) s () t)
    (helse : t.reader.current.kind ≠ .keyword .elseWord) (hn : u.reader.remaining ≤ n) :
    Cleanly (ifStatement inner) u () t := by
  unfold Statement.compile at h
  obtain ⟨_, u', hword', h₁⟩ := h.of_bind
  obtain ⟨_, rfl⟩ := hword.unique hword'
  obtain ⟨_, a, hopen, h₂⟩ := h₁.of_bind
  obtain ⟨_, b, hcondition, h₃⟩ := h₂.of_bind
  obtain ⟨_, c, hclose, h₄⟩ := h₃.of_bind
  obtain ⟨otherwise, d, hjump, h₅⟩ := h₄.of_bind
  obtain ⟨_, x, hpop, h₆⟩ := h₅.of_bind
  obtain ⟨_, y, hcompiled, hend⟩ := h₆.of_bind
  obtain ⟨done, z, hdone, h₇⟩ := hend.of_bind
  obtain ⟨_, a', hpatch, h₈⟩ := h₇.of_bind
  obtain ⟨_, b', hdrop, hfinish⟩ := h₈.of_bind
  have hle := hopen.remaining_le
  have hlate : x.reader.remaining ≤ a.reader.remaining :=
    Nat.le_trans hpop.remaining_le (Nat.le_trans hjump.remaining_le
      (Nat.le_trans hclose.remaining_le hcondition.remaining_le))
  have hlimit := hinner.budget
  have hvalue := expression_accepts inner.budget he hcondition hclose.kind_of_expect
    rfl (by nofun) (by omega)
  have hstatement : Cleanly inner.statement x () y := by
    apply hinner.statement hbody hcompiled _ (by omega)
    rw [← Still.reader_eq hend]
    exact fun _ => helse
  have hnone : Cleanly (accept (.keyword .elseWord) : Compile w.settings Bool) b' false b' := by
    refine cleanly_accept.mpr (.inr ⟨rfl, ?_, hfinish.before, rfl⟩)
    rw [← Still.reader_eq hfinish]
    exact helse
  unfold ifStatement
  exact (cleanly_consume_iff_expect.mpr hopen).bind (hvalue.bind
    ((cleanly_consume_iff_expect.mpr hclose).bind (hjump.bind (hpop.bind (hstatement.bind
      (hdone.bind (hpatch.bind (hdrop.bind (hnone.bind hfinish)))))))))

theorem ifElse_accepts {e : Expression} {body other : Statement} {ts us vs : List Kind}
    (hclosed : body.endsOpen = false) (he : Expression.Spelled .assignment e ts)
    (hbody : Statement.Spelled body us) (hother : Statement.Spelled other vs)
    (hword : Cleanly (expect (.keyword .ifWord) : Compile w.settings Unit) s () u)
    (h : Cleanly ((Statement.ifElse e body other).compile : Compile w.settings Unit) s () t)
    (helse : other.endsOpen = true → t.reader.current.kind ≠ .keyword .elseWord)
    (hn : u.reader.remaining ≤ n) : Cleanly (ifStatement inner) u () t := by
  unfold Statement.compile at h
  obtain ⟨_, u', hword', h₁⟩ := h.of_bind
  obtain ⟨_, rfl⟩ := hword.unique hword'
  obtain ⟨_, a, hopen, h₂⟩ := h₁.of_bind
  obtain ⟨_, b, hcondition, h₃⟩ := h₂.of_bind
  obtain ⟨_, c, hclose, h₄⟩ := h₃.of_bind
  obtain ⟨otherwise, d, hjump, h₅⟩ := h₄.of_bind
  obtain ⟨_, x, hpop, h₆⟩ := h₅.of_bind
  obtain ⟨_, y, hcompiled, h₇⟩ := h₆.of_bind
  obtain ⟨done, z, hdone, h₈⟩ := h₇.of_bind
  obtain ⟨_, a', hpatch, h₉⟩ := h₈.of_bind
  obtain ⟨_, b', hdrop, h₁₀⟩ := h₉.of_bind
  obtain ⟨_, c', helseWord, h₁₁⟩ := h₁₀.of_bind
  obtain ⟨_, d', hotherCompiled, hfinish⟩ := h₁₁.of_bind
  have hle := hopen.remaining_le
  have hlate : x.reader.remaining ≤ a.reader.remaining :=
    Nat.le_trans hpop.remaining_le (Nat.le_trans hjump.remaining_le
      (Nat.le_trans hclose.remaining_le hcondition.remaining_le))
  have hlater : c'.reader.remaining ≤ x.reader.remaining :=
    Nat.le_trans helseWord.remaining_le (Nat.le_trans hdrop.remaining_le
      (Nat.le_trans hpatch.remaining_le (Nat.le_trans hdone.remaining_le hcompiled.remaining_le)))
  have hlimit := hinner.budget
  have hvalue := expression_accepts inner.budget he hcondition hclose.kind_of_expect
    rfl (by nofun) (by omega)
  have hstatement : Cleanly inner.statement x () y := by
    apply hinner.statement hbody hcompiled _ (by omega)
    rw [hclosed]
    nofun
  have hotherStatement : Cleanly inner.statement c' () d' := by
    apply hinner.statement hother hotherCompiled _ (by omega)
    rw [← Still.reader_eq hfinish]
    exact helse
  have hsome : Cleanly (accept (.keyword .elseWord) : Compile w.settings Bool) b' true c' :=
    cleanly_accept.mpr (.inl ⟨rfl, helseWord⟩)
  unfold ifStatement
  exact (cleanly_consume_iff_expect.mpr hopen).bind (hvalue.bind
    ((cleanly_consume_iff_expect.mpr hclose).bind (hjump.bind (hpop.bind (hstatement.bind
      (hdone.bind (hpatch.bind (hdrop.bind (hsome.bind (hotherStatement.bind hfinish))))))))))

theorem whileStatement_accepts {e : Expression} {body : Statement} {ts us : List Kind}
    (he : Expression.Spelled .assignment e ts) (hbody : Statement.Spelled body us)
    (hword : Cleanly (expect (.keyword .whileWord) : Compile w.settings Unit) s () u)
    (h : Cleanly ((Statement.whileLoop e body).compile : Compile w.settings Unit) s () t)
    (helse : body.endsOpen = true → t.reader.current.kind ≠ .keyword .elseWord)
    (hn : u.reader.remaining ≤ n) : Cleanly (whileStatement inner) u () t := by
  unfold Statement.compile at h
  obtain ⟨_, u', hword', h₁⟩ := h.of_bind
  obtain ⟨_, rfl⟩ := hword.unique hword'
  obtain ⟨start, a, hstart, h₂⟩ := h₁.of_bind
  obtain ⟨_, b, hopen, h₃⟩ := h₂.of_bind
  obtain ⟨_, c, hcondition, h₄⟩ := h₃.of_bind
  obtain ⟨_, d, hclose, h₅⟩ := h₄.of_bind
  obtain ⟨exit, x, hjump, h₆⟩ := h₅.of_bind
  obtain ⟨_, y, hpop, h₇⟩ := h₆.of_bind
  obtain ⟨_, z, hcompiled, hend⟩ := h₇.of_bind
  have hle : b.reader.remaining ≤ u'.reader.remaining :=
    Nat.le_trans hopen.remaining_le hstart.remaining_le
  have hlate : y.reader.remaining ≤ b.reader.remaining :=
    Nat.le_trans hpop.remaining_le (Nat.le_trans hjump.remaining_le
      (Nat.le_trans hclose.remaining_le hcondition.remaining_le))
  have hlimit := hinner.budget
  have hvalue := expression_accepts inner.budget he hcondition hclose.kind_of_expect
    rfl (by nofun) (by omega)
  have hstatement : Cleanly inner.statement y () z := by
    apply hinner.statement hbody hcompiled _ (by omega)
    rw [← Still.reader_eq hend]
    exact helse
  unfold whileStatement
  exact hstart.bind ((cleanly_consume_iff_expect.mpr hopen).bind (hvalue.bind
    ((cleanly_consume_iff_expect.mpr hclose).bind (hjump.bind (hpop.bind
      (hstatement.bind hend))))))

theorem forStatement_accepts {first : Initializer} {condition increment : Option Expression}
    {body : Statement} {ts us vs ws : List Kind} (hfirst : Initializer.Spelled first ts)
    (hcondition : Expression.SpelledOption condition us)
    (hincrement : Expression.SpelledOption increment vs) (hbody : Statement.Spelled body ws)
    (hword : Cleanly (expect (.keyword .forWord) : Compile w.settings Unit) s () u)
    (h : Cleanly ((Statement.forLoop first condition increment body).compile :
      Compile w.settings Unit) s () t)
    (helse : body.endsOpen = true → t.reader.current.kind ≠ .keyword .elseWord)
    (hn : u.reader.remaining ≤ n) : Cleanly (forStatement inner) u () t := by
  unfold Statement.compile at h
  obtain ⟨_, u', hword', h₁⟩ := h.of_bind
  obtain ⟨_, rfl⟩ := hword.unique hword'
  obtain ⟨_, a, hscope, h₂⟩ := h₁.of_bind
  obtain ⟨_, b, hopen, h₃⟩ := h₂.of_bind
  obtain ⟨_, c, hfirstCompiled, h₄⟩ := h₃.of_bind
  obtain ⟨start, d, hstart, h₅⟩ := h₄.of_bind
  obtain ⟨exit, x, hconditionCompiled, h₆⟩ := h₅.of_bind
  obtain ⟨next, y, hincrementCompiled, h₇⟩ := h₆.of_bind
  obtain ⟨_, z, hcompiled, hend⟩ := h₇.of_bind
  have hb : b.reader.remaining ≤ u'.reader.remaining :=
    Nat.le_trans hopen.remaining_le hscope.remaining_le
  have hd : d.reader.remaining ≤ b.reader.remaining :=
    Nat.le_trans hstart.remaining_le hfirstCompiled.remaining_le
  have hx := hconditionCompiled.remaining_le
  have hy := hincrementCompiled.remaining_le
  have hlimit := hinner.budget
  have hfirstAccepted : Cleanly (forInitializer inner) b () c :=
    forInitializer_accepts hfirst hfirstCompiled (by omega)
  have hconditionAccepted : Cleanly (forCondition inner) d exit x :=
    forCondition_accepts hcondition hconditionCompiled (by omega)
  have hincrementAccepted : Cleanly (forIncrement inner start) x next y :=
    forIncrement_accepts hincrement hincrementCompiled (by omega)
  have hstatement : Cleanly inner.statement y () z := by
    apply hinner.statement hbody hcompiled _ (by omega)
    rw [← Still.reader_eq hend]
    exact helse
  rw [forStatement_eq]
  exact hscope.bind ((cleanly_consume_iff_expect.mpr hopen).bind (hfirstAccepted.bind
    (hstart.bind (hconditionAccepted.bind (hincrementAccepted.bind (hstatement.bind hend))))))

omit hinner in
/-- A statement with a word of its own starts with it. -/
theorem word_of_statement (word : Keyword) {k : Unit → Compile w.settings Unit}
    [∀ a, Orderly (k a)] (h : Cleanly (expect (.keyword word) >>= k) s () t) :
    ∃ u, Cleanly (expect (.keyword word) : Compile w.settings Unit) s () u ∧
      u.reader.remaining < s.reader.remaining := by
  obtain ⟨_, u, hword, _⟩ := h.of_bind
  exact ⟨u, hword, hword.remaining_of_expect (by nofun)⟩

theorem statementStep_accepts {b : Statement} {ts : List Kind} (hb : Statement.Spelled b ts)
    (h : Cleanly (b.compile : Compile w.settings Unit) s () t)
    (helse : b.endsOpen = true → t.reader.current.kind ≠ .keyword .elseWord)
    (hn : s.reader.remaining ≤ n + 1) : Cleanly (statementStep inner) s () t := by
  have hlimit := hinner.budget
  unfold statementStep
  rw [cleanly_current_bind]
  cases hb with
  | expression he =>
      unfold Statement.compile at h
      obtain ⟨_, a, hcompiled, _⟩ := h.of_bind
      obtain ⟨leading, hleading⟩ := leading_expression he hcompiled
      split
      case h_7 => exact expressionStatement_accepts he h (by omega)
      all_goals
        rename_i hkind
        rw [hkind] at hleading
        cases hleading
  | print he =>
      unfold Statement.compile at h
      obtain ⟨_, a, hword, h₁⟩ := h.of_bind
      obtain ⟨_, b, hcompiled, h₂⟩ := h₁.of_bind
      obtain ⟨_, c, hsemicolon, hprint⟩ := h₂.of_bind
      have hle := hword.remaining_le
      have hvalue := expression_accepts inner.budget he hcompiled
        hsemicolon.kind_of_expect rfl (by simp) (by omega)
      rw [hword.kind_of_expect]
      exact (cleanly_expect.mp hword).2.bind
        (hvalue.bind ((cleanly_consume_iff_expect.mpr hsemicolon).bind hprint))
  | ifThen he hbody =>
      obtain ⟨a, hword, hle⟩ := word_of_statement .ifWord h
      rw [hword.kind_of_expect]
      exact (cleanly_expect.mp hword).2.bind
        (ifThen_accepts hinner he hbody hword h (helse rfl) (by omega))
  | ifElse hclosed he hbody hother =>
      obtain ⟨a, hword, hle⟩ := word_of_statement .ifWord h
      rw [hword.kind_of_expect]
      exact (cleanly_expect.mp hword).2.bind
        (ifElse_accepts hinner hclosed he hbody hother hword h helse (by omega))
  | whileLoop he hbody =>
      obtain ⟨a, hword, hle⟩ := word_of_statement .whileWord h
      rw [hword.kind_of_expect]
      exact (cleanly_expect.mp hword).2.bind
        (whileStatement_accepts hinner he hbody hword h helse (by omega))
  | forLoop hfirst hcondition hincrement hbody =>
      obtain ⟨a, hword, hle⟩ := word_of_statement .forWord h
      rw [hword.kind_of_expect]
      exact (cleanly_expect.mp hword).2.bind
        (forStatement_accepts hinner hfirst hcondition hincrement hbody hword h helse (by omega))
  | ret he =>
      have hword : ∃ a, Cleanly (expect (.keyword .returnWord) : Compile w.settings Unit) s () a ∧
          a.reader.remaining < s.reader.remaining := by
        cases he <;> exact word_of_statement _ h
      obtain ⟨a, hword, hle⟩ := hword
      rw [hword.kind_of_expect]
      exact (cleanly_expect.mp hword).2.bind
        (returnStatement_accepts he hword h (by omega))
  | block hds =>
      unfold Statement.compile at h
      obtain ⟨_, a, hopen, h₁⟩ := h.of_bind
      obtain ⟨_, b, hscope, h₂⟩ := h₁.of_bind
      obtain ⟨_, c, hcompiled, h₃⟩ := h₂.of_bind
      obtain ⟨_, d, hclose, hend⟩ := h₃.of_bind
      have hless := hopen.remaining_of_expect (by simp)
      have hle := hscope.remaining_le
      rw [hopen.kind_of_expect]
      exact (cleanly_expect.mp hopen).2.bind (hscope.bind
        ((block_accepts hinner hds hcompiled hclose (by omega)).bind hend))

omit hinner in
theorem parameter_accepts {name : Symbol} {count : Nat}
    (h : Cleanly (compileParameters.compileParameter name count : Compile w.settings Unit)
      s () t) :
    Cleanly (parameter count : Compile w.settings Unit) s () t ∧
      s.reader.current.kind = .identifier name ∧ t.reader.remaining < s.reader.remaining := by
  unfold compileParameters.compileParameter at h
  unfold parameter
  rw [measure_bind]
  dsimp only at h ⊢
  cases hfits : Limits.admits w.limits.parameters (count + 1) with
  | false =>
      rw [hfits] at h
      obtain ⟨_, _, hreport, _⟩ := Cleanly.of_bind
        (show Cleanly (reportCurrent .tooManyParameters >>= fun _ => _) _ _ _ from h)
      exact (not_cleanly_reportCurrent hreport).elim
  | true =>
      rw [hfits] at h
      obtain ⟨index, u, hdeclared, hdefine⟩ := Cleanly.of_bind
        (show Cleanly (declareNamed name >>= defineVariable) _ _ _ from h)
      have hle := hdefine.remaining_le
      have haccepted : Cleanly (declaredName "Expect parameter name." : Compile w.settings Nat)
          s index u := declaredName_accepts hdeclared
      unfold declareNamed at hdeclared
      obtain ⟨_, a, hname, hrest⟩ := hdeclared.of_bind
      have hless := hname.remaining_of_expect (by nofun)
      have hle' := hrest.remaining_le
      exact ⟨haccepted.bind hdefine, hname.kind_of_expect, by omega⟩

omit hinner in
theorem parameters_accepted {name : Symbol} {names : List Symbol} {fuel count : Nat}
    (h : Cleanly (compileParameters (name :: names) count : Compile w.settings Unit) s () t)
    (hend : t.reader.current.kind = .closeParen) (hfuel : s.reader.remaining ≤ fuel) :
    Cleanly (separated parameter fuel count : Compile w.settings Nat) s
      (count + (name :: names).length) t := by
  induction names generalizing name fuel count s with
  | nil =>
      unfold compileParameters at h
      obtain ⟨hfirst, _, hless⟩ := parameter_accepts h
      have hnone : Cleanly (accept .comma : Compile w.settings Bool) t false t := by
        refine cleanly_accept.mpr (.inr ⟨rfl, ?_, h.after, rfl⟩)
        rw [hend]
        nofun
      cases fuel with
      | zero => omega
      | succ fuel =>
          unfold separated
          exact hfirst.bind (hnone.bind (cleanly_pure.mpr ⟨h.after, rfl, rfl⟩))
  | cons next names ih =>
      unfold compileParameters at h
      obtain ⟨_, a, hparameter, h₁⟩ := h.of_bind
      obtain ⟨_, b, hcomma, hrest⟩ := h₁.of_bind
      obtain ⟨hfirst, _, hless⟩ := parameter_accepts hparameter
      have hle := hcomma.remaining_le
      have hsome : Cleanly (accept .comma : Compile w.settings Bool) a true b :=
        cleanly_accept.mpr (.inl ⟨rfl, hcomma⟩)
      have hcount : count + (name :: next :: names).length =
          count + 1 + (next :: names).length := by
        simp only [List.length_cons]
        omega
      rw [hcount]
      cases fuel with
      | zero => omega
      | succ fuel =>
          unfold separated
          exact hfirst.bind (hsome.bind (ih hrest (by omega)))

omit hinner in
theorem parameterList_accepts {names : List Symbol}
    (h : Cleanly (compileParameters names 0 : Compile w.settings Unit) s () u)
    (harity : Cleanly (modifyFrame fun frame =>
      { frame with arity := Limits.clamp w.limits.parameters names.length } :
        Compile w.settings Unit) u () t)
    (hend : t.reader.current.kind = .closeParen) (hbudget : s.reader.remaining ≤ inner.budget) :
    Cleanly (parameterList inner) s () t := by
  have hreader : t.reader = u.reader := Still.reader_eq harity
  unfold parameterList
  dsimp only
  rw [cleanly_check_bind]
  cases names with
  | nil =>
      unfold compileParameters at h
      obtain ⟨_, _, rfl⟩ := cleanly_pure.mp h
      have hclose : u.reader.check .closeParen = true := decide_eq_true (hreader ▸ hend)
      rw [if_pos hclose, pure_bind]
      exact harity
  | cons name names =>
      have hfirst : s.reader.current.kind = .identifier name := by
        cases names with
        | nil =>
            unfold compileParameters at h
            exact (parameter_accepts h).2.1
        | cons next names =>
            unfold compileParameters at h
            obtain ⟨_, a, hparameter, _⟩ := h.of_bind
            exact (parameter_accepts hparameter).2.1
      have hopen : ¬ s.reader.check .closeParen = true := by
        simp [Reader.check, hfirst]
      have hall := parameters_accepted h (hreader ▸ hend) hbudget
      rw [Nat.zero_add] at hall
      rw [if_neg hopen]
      exact hall.bind harity

theorem function_accepts {kind : FunctionKind} {f : FunctionTree} {ts : List Kind}
    (hf : FunctionTree.Spelled f ts) (hname : s.reader.previous.kind = .identifier f.name)
    (h : Cleanly (FunctionTree.compile kind f : Compile w.settings Unit) s () t)
    (hn : s.reader.remaining ≤ n) : Cleanly (function inner kind) s () t := by
  have hlimit := hinner.budget
  rw [function_eq, cleanly_previousName_bind hname]
  cases hf with
  | mk hds =>
      unfold FunctionTree.compile at h
      obtain ⟨_, a, hbegin, h₁⟩ := h.of_bind
      obtain ⟨_, b, hscope, h₂⟩ := h₁.of_bind
      obtain ⟨_, c, hopen, h₃⟩ := h₂.of_bind
      obtain ⟨_, d, hparameters, h₄⟩ := h₃.of_bind
      obtain ⟨_, x, harity, h₅⟩ := h₄.of_bind
      obtain ⟨_, y, hclose, h₆⟩ := h₅.of_bind
      obtain ⟨_, z, hbrace, h₇⟩ := h₆.of_bind
      obtain ⟨_, a', hbody, h₈⟩ := h₇.of_bind
      obtain ⟨_, b', hbodyEnd, hend⟩ := h₈.of_bind
      have hc : c.reader.remaining ≤ s.reader.remaining :=
        Nat.le_trans hopen.remaining_le (Nat.le_trans hscope.remaining_le hbegin.remaining_le)
      have hz : z.reader.remaining ≤ c.reader.remaining :=
        Nat.le_trans hbrace.remaining_le (Nat.le_trans hclose.remaining_le
          (Nat.le_trans harity.remaining_le hparameters.remaining_le))
      have hlist : Cleanly (parameterList inner) c () x :=
        parameterList_accepts hparameters harity hclose.kind_of_expect (by omega)
      have hblock := block_accepts hinner hds hbody hbodyEnd (by omega)
      exact hbegin.bind (hscope.bind ((cleanly_consume_iff_expect.mpr hopen).bind (hlist.bind
        ((cleanly_consume_iff_expect.mpr hclose).bind
          ((cleanly_consume_iff_expect.mpr hbrace).bind (hblock.bind hend))))))

theorem methods_accepted (fuel : Nat) {fs : List FunctionTree} {ts : List Kind}
    (hfs : FunctionTree.SpelledEach fs ts)
    (h : Cleanly (FunctionTree.compileMethods fs : Compile w.settings Unit) s () t)
    (hend : t.reader.current.kind = .closeBrace) (hn : s.reader.remaining ≤ n)
    (hfuel : s.reader.remaining < fuel) :
    Cleanly (repeatWhile insideBraces (method inner) fuel) s () t := by
  induction fs generalizing ts fuel s with
  | nil =>
      unfold FunctionTree.compileMethods at h
      obtain ⟨_, _, rfl⟩ := cleanly_pure.mp h
      have hstop : Cleanly (insideBraces : Compile w.settings Bool) t false t :=
        cleanly_insideBraces.mpr ⟨h.before, by simp [Reader.check, hend], rfl⟩
      exact hstop.repeatWhile_stop (by omega)
  | cons f fs ih =>
      cases hfs with
      | cons hf hrest =>
          unfold FunctionTree.compileMethods at h
          dsimp only at h
          obtain ⟨_, a, hname, h₁⟩ := h.of_bind
          obtain ⟨constant, b, hconstant, h₂⟩ := h₁.of_bind
          rw [cleanly_read_bind] at h₂
          obtain ⟨_, c, hcompiled, h₃⟩ := h₂.of_bind
          obtain ⟨_, d, hmethod, hmore⟩ := h₃.of_bind
          have hless := hname.remaining_of_expect (by nofun)
          have hle := hconstant.remaining_le
          have hlate : d.reader.remaining ≤ b.reader.remaining :=
            Nat.le_trans hmethod.remaining_le hcompiled.remaining_le
          have hgo : Cleanly (insideBraces : Compile w.settings Bool) s true s := by
            refine cleanly_insideBraces.mpr ⟨h.before, ?_, rfl⟩
            simp [Reader.check, hname.kind_of_expect]
          have hlast : b.reader.previous.kind = .identifier f.name := by
            rw [Still.reader_eq hconstant]
            exact hname.previous_of_expect
          have hfunction := function_accepts hinner hf hlast hcompiled (by omega)
          have hstep : Cleanly (method inner) s () d := by
            unfold method
            exact (cleanly_consumeIdentifier.mpr hname).bind (hconstant.bind
              (cleanly_read_bind.mpr (hfunction.bind hmethod)))
          exact hgo.repeatWhile_again hstep (by omega)
            (ih _ hrest hmore (by omega) (by omega))

theorem classDeclaration_accepts {name : Symbol} {superclass : Option Symbol}
    {fs : List FunctionTree} {ts : List Kind} (hfs : FunctionTree.SpelledEach fs ts)
    (hword : Cleanly (expect (.keyword .classWord) : Compile w.settings Unit) s () u)
    (h : Cleanly ((Declaration.classDeclaration name superclass fs).compile :
      Compile w.settings Unit) s () t)
    (hn : u.reader.remaining ≤ n) : Cleanly (classDeclaration inner) u () t := by
  unfold Declaration.compile at h
  obtain ⟨_, u', hword', h₁⟩ := h.of_bind
  obtain ⟨_, rfl⟩ := hword.unique hword'
  obtain ⟨_, a, hname, h₂⟩ := h₁.of_bind
  obtain ⟨constant, b, hconstant, h₃⟩ := h₂.of_bind
  obtain ⟨_, c, hdeclare, h₄⟩ := h₃.of_bind
  obtain ⟨_, d, hmake, h₅⟩ := h₄.of_bind
  obtain ⟨_, x, hdefine, h₆⟩ := h₅.of_bind
  obtain ⟨_, y, hbegin, h₇⟩ := h₆.of_bind
  obtain ⟨_, z, hsuper, hrest⟩ := h₇.of_bind
  have hz : z.reader.remaining ≤ u'.reader.remaining :=
    Nat.le_trans hsuper.remaining_le (Nat.le_trans hbegin.remaining_le
      (Nat.le_trans hdefine.remaining_le (Nat.le_trans hmake.remaining_le
        (Nat.le_trans hdeclare.remaining_le
          (Nat.le_trans hconstant.remaining_le hname.remaining_le)))))
  obtain ⟨hbody, hstart⟩ : Cleanly (classBody inner name) z () t ∧
      z.reader.current.kind = .openBrace := by
    unfold compileClassBody at hrest
    obtain ⟨_, a', hload, h₈⟩ := hrest.of_bind
    obtain ⟨_, b', hopen, h₉⟩ := h₈.of_bind
    obtain ⟨_, c', hmethods, h₁₀⟩ := h₉.of_bind
    obtain ⟨_, d', hclose, hend⟩ := h₁₀.of_bind
    have hle : b'.reader.remaining ≤ z.reader.remaining :=
      Nat.le_trans hopen.remaining_le hload.remaining_le
    have hlimit := hinner.budget
    have hloop := methods_accepted hinner inner.budget hfs hmethods
      hclose.kind_of_expect (by omega) (by omega)
    refine ⟨hload.bind ((cleanly_consume_iff_expect.mpr hopen).bind
      (hloop.bind ((cleanly_consume_iff_expect.mpr hclose).bind hend))), ?_⟩
    rw [← Still.reader_eq hload]
    exact hopen.kind_of_expect
  rw [classDeclaration_eq]
  refine (cleanly_consumeIdentifier.mpr hname).bind (hconstant.bind (hdeclare.bind
    (hmake.bind (hdefine.bind (hbegin.bind ?_)))))
  cases superclass with
  | none =>
      unfold compileSuperclass at hsuper
      obtain ⟨_, _, rfl⟩ := cleanly_pure.mp hsuper
      have hnone : Cleanly (accept (.operator .less) : Compile w.settings Bool) z false z := by
        refine cleanly_accept.mpr (.inr ⟨rfl, ?_, hbody.before, rfl⟩)
        rw [hstart]
        nofun
      exact hnone.bind hbody
  | some superclass =>
      unfold compileSuperclass at hsuper
      obtain ⟨_, a', hless, h₈⟩ := hsuper.of_bind
      obtain ⟨_, b', hsuperName, hinherit⟩ := h₈.of_bind
      have hsome : Cleanly (accept (.operator .less) : Compile w.settings Bool) y true a' :=
        cleanly_accept.mpr (.inl ⟨rfl, hless⟩)
      have hclause : Cleanly (superclassClause name : Compile w.settings Unit) a' () z :=
        (cleanly_consumeIdentifier.mpr hsuperName).bind hinherit
      exact hsome.bind (hclause.bind hbody)

theorem declarationStep_accepts {d : Declaration} {ts : List Kind}
    (hd : Declaration.Spelled d ts) (h : Cleanly (d.compile : Compile w.settings Unit) s () t)
    (helse : t.reader.current.kind ≠ .keyword .elseWord) (hn : s.reader.remaining ≤ n + 1) :
    Cleanly (declarationStep inner) s () t := by
  have hlimit := hinner.budget
  have hrecover {m : Compile w.settings Unit} {a : Session β} (h : Cleanly m a () t) :
      Cleanly (do m; recover) a () t :=
    h.bind (cleanly_recover.mpr ⟨h.after, rfl⟩)
  have hother {word : Keyword} (hword : s.reader.current.kind ≠ .keyword word) :
      Cleanly (accept (.keyword word) : Compile w.settings Bool) s false s :=
    cleanly_accept.mpr (.inr ⟨rfl, hword, h.before, rfl⟩)
  unfold declarationStep
  dsimp only
  match hd with
  | .classDeclaration hfs =>
      have hclass := h
      unfold Declaration.compile at hclass
      obtain ⟨_, a, hword, _⟩ := hclass.of_bind
      have hless := hword.remaining_of_expect (by nofun)
      have hsome : Cleanly (accept (.keyword .classWord) : Compile w.settings Bool) s true a :=
        cleanly_accept.mpr (.inl ⟨rfl, hword⟩)
      exact hsome.bind
        (hrecover (classDeclaration_accepts hinner hfs hword h (by omega)))
  | .funDeclaration hf =>
      unfold Declaration.compile at h
      obtain ⟨_, a, hword, h₁⟩ := h.of_bind
      obtain ⟨global, b, hdeclared, h₂⟩ := h₁.of_bind
      obtain ⟨_, c, hmark, h₃⟩ := h₂.of_bind
      obtain ⟨_, d, hcompiled, hdefine⟩ := h₃.of_bind
      have hless := hword.remaining_of_expect (by nofun)
      have hlate : c.reader.remaining ≤ a.reader.remaining :=
        Nat.le_trans hmark.remaining_le hdeclared.remaining_le
      have hsome : Cleanly (accept (.keyword .funWord) : Compile w.settings Bool) s true a :=
        cleanly_accept.mpr (.inl ⟨rfl, hword⟩)
      have hlast := hdeclared.previous_of_declareNamed
      rw [← Still.reader_eq hmark] at hlast
      have hname : Cleanly (declaredName "Expect function name." : Compile w.settings Nat)
          a global b := declaredName_accepts hdeclared
      have hfunction : Cleanly (funDeclaration inner) a () t :=
        hname.bind (hmark.bind ((function_accepts hinner hf hlast hcompiled (by omega)).bind
          hdefine))
      have hkind := hword.kind_of_expect
      exact (hother (by rw [hkind]; nofun)).bind (hsome.bind (hrecover hfunction))
  | .varDeclaration hvariable =>
      unfold Declaration.compile at h
      obtain ⟨_, a, hword, hcompiled⟩ := h.of_bind
      have hless := hword.remaining_of_expect (by nofun)
      have hsome : Cleanly (accept (.keyword .varWord) : Compile w.settings Bool) s true a :=
        cleanly_accept.mpr (.inl ⟨rfl, hword⟩)
      have hkind := hword.kind_of_expect
      exact (hother (by rw [hkind]; nofun)).bind ((hother (by rw [hkind]; nofun)).bind
        (hsome.bind (hrecover (varDeclaration_accepts hvariable hcompiled (by omega)))))
  | .statement hb =>
      unfold Declaration.compile at h
      have hfirst := first_statement hb h
      simp only [List.mem_cons, List.not_mem_nil, or_false, not_or] at hfirst
      obtain ⟨hclass, hfun, hvar, _⟩ := hfirst
      exact (hother hclass).bind ((hother hfun).bind ((hother hvar).bind
        (hrecover (statementStep_accepts hinner hb h (fun _ => helse) hn))))

end Inner

/-- What stands inside a declaration accepts all trees of at most as many tokens as its
budget. -/
theorem acceptsInner_of_budget (budget : Nat) :
    AcceptsInner budget
      (⟨declaration budget, statement budget, budget + 1⟩ : Inner w.settings) := by
  induction budget with
  | zero =>
      constructor
      · exact Nat.zero_lt_one
      · intro d ts s t hd h _ hn
        have hless := remaining_declaration hd h
        omega
      · intro b ts s t hb h _ hn
        have hless := remaining_statement hb h
        omega
  | succ budget ih =>
      let inner : Inner w.settings := ⟨declaration budget, statement budget, budget + 1⟩
      constructor
      · exact Nat.lt_succ_self _
      · intro d ts s t hd h helse hn
        have hstep : Cleanly (declarationStep inner) s () t :=
          declarationStep_accepts ih hd h helse hn
        exact ⟨hstep.before, hstep.run, hstep.after⟩
      · intro b ts s t hb h helse hn
        have hstep : Cleanly (statementStep inner) s () t :=
          statementStep_accepts ih hb h helse hn
        exact ⟨hstep.before, hstep.run, hstep.after⟩

/-- Every program that compiles cleanly is accepted as a script. -/
theorem script_accepts {budget : Nat} {ds : List Declaration} {ts : List Kind} {s t : Session β}
    {f : Function β} (hds : Declaration.SpelledEach ds ts)
    (h : Cleanly (Declaration.compileProgram ds : Compile w.settings (Function β)) s f t)
    (hbudget : s.reader.remaining < budget) :
    Cleanly (script budget : Compile w.settings (Function β)) s f t := by
  unfold Declaration.compileProgram at h
  obtain ⟨_, u, hcompiled, h₁⟩ := h.of_bind
  obtain ⟨_, v, hend, hfinish⟩ := h₁.of_bind
  have hgo {s : Session β} (hs : s.reader.Quiet)
      (hstart : s.reader.current.kind ∉ [.keyword .elseWord, .closeBrace, .endOfInput]) :
      Cleanly (return !(← accept .endOfInput) : Compile w.settings Bool) s true s := by
    simp only [List.mem_cons, List.not_mem_nil, or_false, not_or] at hstart
    have hnone : Cleanly (accept .endOfInput : Compile w.settings Bool) s false s :=
      cleanly_accept.mpr (.inr ⟨rfl, hstart.2.2, hs, rfl⟩)
    exact hnone.bind (cleanly_pure.mpr ⟨hs, rfl, rfl⟩)
  have hsome : Cleanly (accept .endOfInput : Compile w.settings Bool) u true v :=
    cleanly_accept.mpr (.inl ⟨rfl, hend⟩)
  have hstop : Cleanly (return !(← accept .endOfInput) : Compile w.settings Bool) u false v :=
    hsome.bind (cleanly_pure.mpr ⟨hend.after, rfl, rfl⟩)
  have hloop := declarations_accepted (acceptsInner_of_budget budget) hgo hds hcompiled hstop
    (by rw [hend.kind_of_expect]; nofun) (Nat.le_of_lt hbudget) hbudget
  exact hloop.bind hfinish

end LoxCompiler.Compile
