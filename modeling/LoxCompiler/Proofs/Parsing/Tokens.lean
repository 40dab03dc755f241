import LoxCompiler.Proofs.Parsing.Step
import LoxCompiler.Proofs.Run.Takes
import LoxCompiler.Proofs.Syntax.Compile

/-! # The tokens of a tree

A clean run that compiles a tree takes the tokens that spell it, whatever state it starts in.
-/

namespace LoxCompiler

open Compile

set_option synthInstance.maxSize 4096

variable {β : Type} {w : Width β}

namespace Compile

theorem isSyntactic_superProblem? {classes : List ClassContext} {problem : Diagnostic.Problem}
    (h : superProblem? classes = some problem) : problem.isSyntactic = false := by
  cases classes with
  | nil =>
      cases h
      rfl
  | cons context classes =>
      obtain ⟨hasSuperclass⟩ := context
      cases hasSuperclass <;> cases h
      rfl

instance (classes : List ClassContext) :
    Still ((superProblem? classes).forM report : Compile w.settings Unit) := by
  cases hproblem : superProblem? classes with
  | none => exact inferInstanceAs (Still (pure ()))
  | some problem => exact still_report (isSyntactic_superProblem? hproblem)

instance : Still (receiver : Compile w.settings Unit) := by unfold receiver; infer_instance

instance (value : Literal Symbol) : Still (pushLiteral value : Compile w.settings Unit) := by
  unfold pushLiteral emitConstant
  split <;> infer_instance

instance (finished : Function β × List Upvalue) :
    Still (emitClosure finished : Compile w.settings Unit) := by
  unfold emitClosure
  infer_instance

/-- Where a problem is reported if something is the case, nothing is in a clean run. -/
theorem Reads.guard {c : Prop} [Decidable c] {r k : Compile w.settings Unit} [Orderly r] [Orderly k]
    {ts : List Kind} (hr : ∀ {s t}, ¬ Cleanly r s () t) (hk : Reads ts k) :
    Reads ts (if c then r >>= fun _ => k else k) := by
  split
  · intro s a t h
    obtain ⟨_, _, hreport, _⟩ := h.of_bind
    exact (hr hreport).elim
  · exact hk

theorem reads_superMethod (name : Symbol) :
    Reads [.keyword .superWord, .dot, .identifier name]
      (superMethod name : Compile w.settings (Nat × Symbol)) :=
  .token (.after fun _ => .after fun _ => .token (.token .silent))

end Compile

mutual

theorem Expression.Spelled.reads : ∀ {level : Precedence} {e : Expression} {ts : List Kind},
    e.Spelled level ts → Reads ts (e.compile : Compile w.settings Unit)
  | _, _, _, .weaken he => he.reads
  | _, _, _, .assign he => by
      unfold Expression.compile
      exact .token (.after fun _ => .token he.reads.before)
  | _, _, _, .set ho he => by
      unfold Expression.compile
      exact ho.reads.bind fun _ => .token (.token (.after fun _ => .token he.reads.before))
  | _, _, _, .or hl hr => by
      unfold Expression.compile
      exact hl.reads.bind fun _ => .token (.after fun _ => .after fun _ => .after fun _ =>
        .after fun _ => hr.reads.before)
  | _, _, _, .and hl hr => by
      unfold Expression.compile
      exact hl.reads.bind fun _ => .token (.after fun _ => .after fun _ => hr.reads.before)
  | _, _, _, .binary _ hl hr => by
      unfold Expression.compile
      exact hl.reads.bind fun _ => .token hr.reads.before
  | _, _, _, .unary _ he => by
      unfold Expression.compile
      exact .token he.reads.before
  | _, _, _, .call _ hf hes => by
      unfold Expression.compile
      rw [List.append_assoc]
      exact hf.reads.bind fun _ => .token ((hes.reads 0).bind fun _ => (Reads.expect _).before)
  | _, _, _, .get ho => by
      unfold Expression.compile
      exact ho.reads.bind fun _ => .token (.token .silent)
  | _, _, _, .invoke ho hes => by
      unfold Expression.compile
      rw [List.append_assoc]
      exact ho.reads.bind fun _ => .token (.token (.after fun _ => .token
        ((hes.reads 0).bind fun _ => (Reads.expect _).before)))
  | _, _, _, .superCall hes => by
      unfold Expression.compile
      exact (reads_superMethod _).bind fun _ => .token
        ((hes.reads 0).bind fun _ => (Reads.expect _).before)
  | _, _, _, .superGet => by
      unfold Expression.compile
      exact (reads_superMethod _).before
  | _, _, _, .receiver => by
      unfold Expression.compile
      exact .token .silent
  | _, _, _, .variable => by
      unfold Expression.compile
      exact .token .silent
  | _, _, _, .literal => by
      unfold Expression.compile
      exact .token .silent
  | _, _, _, .group he => by
      unfold Expression.compile
      exact .token (he.reads.bind fun _ => Reads.expect _)

theorem Expression.SpelledEach.reads : ∀ {es : List Expression} {ts : List Kind},
    Expression.SpelledEach es ts → ∀ count : Nat,
      Reads ts (Expression.compileEach es count : Compile w.settings Unit)
  | _, _, .none, _ => by
      unfold Expression.compileEach
      exact .silent
  | _, _, .last he, _ => by
      unfold Expression.compileEach
      exact he.reads.before
  | _, _, .more he hes, count => by
      unfold Expression.compileEach
      exact he.reads.bind fun _ => .after fun _ => .token (hes.reads (count + 1))

end

section Variables

variable {name : Symbol} {names : List Symbol} {value : Option Expression} {ts : List Kind}

theorem Compile.reads_declareNamed :
    Reads [.identifier name] (declareNamed name : Compile w.settings Nat) := by
  unfold declareNamed
  exact .token .silent

theorem Declaration.VariableSpelled.reads (h : Declaration.VariableSpelled name value ts) :
    Reads ts (compileVariable name value : Compile w.settings Unit) := by
  unfold compileVariable
  cases h with
  | bare =>
      exact reads_declareNamed.bind fun _ => (Reads.silent (m := emit .pushNil)).bind fun _ =>
        .token .silent
  | @initial e ts he =>
      have hvalue : Reads (.operator .assign :: ts)
          (compileInitial (some e) : Compile w.settings Unit) := .token he.reads
      exact reads_declareNamed.bind fun _ => hvalue.bind fun _ => (Reads.expect _).before

theorem Initializer.Spelled.reads {first : Initializer} (h : first.Spelled ts) :
    Reads ts (first.compile : Compile w.settings Unit) := by
  cases h with
  | absent => exact .expect _
  | «variable» h => exact .token h.reads
  | expression he => exact he.reads.bind fun _ => .token .silent

theorem Compile.reads_compileCondition (h : Expression.SpelledOption value ts) :
    Reads (ts ++ [.semicolon]) (compileCondition value : Compile w.settings (Option Nat)) := by
  unfold compileCondition
  cases h with
  | none => exact .token .silent
  | some he => exact he.reads.bind fun _ => .token .silent

theorem Compile.reads_compileIncrement (start : Nat) (h : Expression.SpelledOption value ts) :
    Reads (ts ++ [.closeParen]) (compileIncrement start value : Compile w.settings Nat) := by
  unfold compileIncrement
  cases h with
  | none => exact .token .silent
  | some he =>
      exact .after fun _ => .after fun _ => he.reads.bind fun _ => .after fun _ => .token .silent

theorem Compile.reads_compileParameters (count : Nat) :
    Reads (FunctionTree.parameterTokens names)
      (compileParameters names count : Compile w.settings Unit) := by
  have hparameter (name : Symbol) (count : Nat) : Reads [.identifier name]
      (compileParameters.compileParameter name count : Compile w.settings Unit) := by
    unfold compileParameters.compileParameter
    exact .guard not_cleanly_reportCurrent reads_declareNamed.before
  fun_induction compileParameters names count with
  | case1 => exact .silent
  | case2 name count => exact hparameter name count
  | case3 name next names count ih => exact (hparameter name count).bind fun _ => .token ih

theorem Compile.reads_compileSuperclass (superclass : Option Symbol) :
    Reads (Declaration.superclassTokens superclass)
      (compileSuperclass name superclass : Compile w.settings Unit) := by
  unfold compileSuperclass
  cases superclass with
  | none => exact .silent
  | some superclass => exact .token (.token .silent)

theorem Compile.reads_compileClassBody {methods : Compile w.settings Unit} [Orderly methods]
    (h : Reads ts methods) : Reads (.openBrace :: (ts ++ [.closeBrace]))
      (compileClassBody name methods) := by
  unfold compileClassBody
  exact .after fun _ => .token (h.bind fun _ => .token .silent)

end Variables

mutual

theorem Statement.Spelled.reads : ∀ {b : Statement} {ts : List Kind}, b.Spelled ts →
    Reads ts (b.compile : Compile w.settings Unit)
  | _, _, .expression he => by
      unfold Statement.compile
      exact he.reads.bind fun _ => .token .silent
  | _, _, .print he => by
      unfold Statement.compile
      exact .token (he.reads.bind fun _ => .token .silent)
  | _, _, .ifThen he hb => by
      unfold Statement.compile
      exact .token (.token (he.reads.bind fun _ => .token (.after fun _ => .after fun _ =>
        hb.reads.before)))
  | _, _, .ifElse _ he hb ho => by
      unfold Statement.compile
      simp only [List.append_assoc, List.cons_append]
      exact .token (.token (he.reads.bind fun _ => .token (.after fun _ => .after fun _ =>
        hb.reads.bind fun _ => .after fun _ => .after fun _ => .after fun _ =>
          .token ho.reads.before)))
  | _, _, .whileLoop he hb => by
      unfold Statement.compile
      exact .token (.after fun _ => .token (he.reads.bind fun _ => .token (.after fun _ =>
        .after fun _ => hb.reads.before)))
  | _, _, @Statement.Spelled.forLoop _ _ _ _ ts us vs ws hi hc hn hb => by
      have hsplit : (.keyword .forWord :: .openParen :: ts ++ us ++ .semicolon :: vs ++
          .closeParen :: ws : List Kind) = .keyword .forWord :: .openParen ::
            (ts ++ (us ++ [.semicolon] ++ (vs ++ [.closeParen] ++ ws))) := by
        simp
      unfold Statement.compile
      rw [hsplit]
      exact .token (.after fun _ => .token (hi.reads.bind fun _ => .after fun start =>
        (reads_compileCondition hc).bind fun _ => (reads_compileIncrement start hn).bind fun _ =>
          hb.reads.before))
  | _, _, .ret .none => by
      unfold Statement.compile
      exact .token (.after fun _ => .guard not_cleanly_report (.token .silent))
  | _, _, .ret (.some he) => by
      unfold Statement.compile
      exact .token (.after fun _ => .guard not_cleanly_report (.guard not_cleanly_report
        (he.reads.bind fun _ => .token .silent)))
  | _, _, .block hds => by
      unfold Statement.compile
      exact .token (.after fun _ => hds.reads.bind fun _ => .token .silent)

theorem Declaration.Spelled.reads : ∀ {d : Declaration} {ts : List Kind}, d.Spelled ts →
    Reads ts (d.compile : Compile w.settings Unit)
  | _, _, @Declaration.Spelled.classDeclaration x y _ ts hfs => by
      have hsplit : (.keyword .classWord :: .identifier x :: Declaration.superclassTokens y ++
          .openBrace :: ts ++ [.closeBrace] : List Kind) = .keyword .classWord :: .identifier x ::
            (Declaration.superclassTokens y ++ .openBrace :: (ts ++ [.closeBrace])) := by
        simp
      unfold Declaration.compile
      rw [hsplit]
      exact .token (.token (.after fun _ => .after fun _ => .after fun _ => .after fun _ =>
        .after fun _ => (reads_compileSuperclass y).bind fun _ => reads_compileClassBody hfs.reads))
  | _, _, .funDeclaration (.mk hds) => by
      unfold Declaration.compile
      exact .token (reads_declareNamed.bind fun _ => .after fun _ =>
        (FunctionTree.reads_compile .function hds).before)
  | _, _, .varDeclaration h => by
      unfold Declaration.compile
      exact .token h.reads
  | _, _, .statement hb => by
      unfold Declaration.compile
      exact hb.reads

theorem Declaration.SpelledEach.reads : ∀ {ds : List Declaration} {ts : List Kind},
    Declaration.SpelledEach ds ts →
      Reads ts (Declaration.compileEach ds : Compile w.settings Unit)
  | _, _, .nil => by
      unfold Declaration.compileEach
      exact .silent
  | _, _, .cons hd hds => by
      unfold Declaration.compileEach
      exact hd.reads.bind fun _ => hds.reads

theorem FunctionTree.reads_compile (kind : FunctionKind) :
    ∀ {x : Symbol} {ps : List Symbol} {ds : List Declaration} {ts : List Kind},
      Declaration.SpelledEach ds ts →
        Reads (.openParen :: FunctionTree.parameterTokens ps ++ .closeParen :: .openBrace :: ts ++
          [.closeBrace]) (FunctionTree.compile kind (.mk x ps ds) : Compile w.settings Unit)
  | _, ps, _, ts, hds => by
      have hsplit : (.openParen :: FunctionTree.parameterTokens ps ++
          .closeParen :: .openBrace :: ts ++ [.closeBrace] : List Kind) = .openParen ::
            (FunctionTree.parameterTokens ps ++ .closeParen :: .openBrace ::
              (ts ++ [.closeBrace])) := by
        simp
      unfold FunctionTree.compile
      rw [hsplit]
      exact .after fun _ => .after fun _ => .token ((reads_compileParameters 0).bind fun _ =>
        .after fun _ => .token (.token (hds.reads.bind fun _ => .token .silent)))

theorem FunctionTree.SpelledEach.reads : ∀ {fs : List FunctionTree} {ts : List Kind},
    FunctionTree.SpelledEach fs ts →
      Reads ts (FunctionTree.compileMethods fs : Compile w.settings Unit)
  | _, _, .nil => by
      unfold FunctionTree.compileMethods
      exact .silent
  | _, _, .cons (.mk hds) hfs => by
      unfold FunctionTree.compileMethods
      exact .token (.after fun _ => .after fun s =>
        (FunctionTree.reads_compile _ hds).bind fun _ => .after fun _ => hfs.reads)

end

/-! ## No tree goes beyond the end of the input -/

mutual

theorem Expression.Spelled.no_end : ∀ {level : Precedence} {e : Expression} {ts : List Kind},
    e.Spelled level ts → .endOfInput ∉ ts
  | _, _, _, .weaken he => he.no_end
  | _, _, _, .assign he => by simp [he.no_end]
  | _, _, _, .set ho he => by simp [ho.no_end, he.no_end]
  | _, _, _, .or hl hr | _, _, _, .and hl hr | _, _, _, .binary _ hl hr => by
      simp [hl.no_end, hr.no_end]
  | _, _, _, .unary _ he => by simp [he.no_end]
  | _, _, _, .call _ hf hes => by simp [hf.no_end, hes.no_end]
  | _, _, _, .get ho => by simp [ho.no_end]
  | _, _, _, .invoke ho hes => by simp [ho.no_end, hes.no_end]
  | _, _, _, .superCall hes => by simp [hes.no_end]
  | _, _, _, .superGet | _, _, _, .receiver | _, _, _, .variable | _, _, _, .literal => by simp
  | _, _, _, .group he => by simp [he.no_end]

theorem Expression.SpelledEach.no_end : ∀ {es : List Expression} {ts : List Kind},
    Expression.SpelledEach es ts → .endOfInput ∉ ts
  | _, _, .none => by simp
  | _, _, .last he => he.no_end
  | _, _, .more he hes => by simp [he.no_end, hes.no_end]

end

theorem Expression.SpelledOption.no_end {e : Option Expression} {ts : List Kind}
    (h : Expression.SpelledOption e ts) : .endOfInput ∉ ts := by
  cases h with
  | none => simp
  | some he => exact he.no_end

theorem Declaration.VariableSpelled.no_end {name : Symbol} {value : Option Expression}
    {ts : List Kind} (h : Declaration.VariableSpelled name value ts) : .endOfInput ∉ ts := by
  cases h with
  | bare => simp
  | initial he => simp [he.no_end]

theorem Initializer.Spelled.no_end {first : Initializer} {ts : List Kind} (h : first.Spelled ts) :
    .endOfInput ∉ ts := by
  cases h with
  | absent => simp
  | «variable» h => simp [h.no_end]
  | expression he => simp [he.no_end]

theorem FunctionTree.no_end_parameterTokens (names : List Symbol) :
    .endOfInput ∉ FunctionTree.parameterTokens names := by
  fun_induction FunctionTree.parameterTokens names with
  | case1 => simp
  | case2 => simp
  | case3 _ _ _ ih => simp [ih]

theorem Declaration.no_end_superclassTokens (superclass : Option Symbol) :
    .endOfInput ∉ Declaration.superclassTokens superclass := by
  cases superclass <;> simp [Declaration.superclassTokens]

mutual

theorem Statement.Spelled.no_end : ∀ {b : Statement} {ts : List Kind}, b.Spelled ts →
    .endOfInput ∉ ts
  | _, _, .expression he | _, _, .print he => by simp [he.no_end]
  | _, _, .ifThen he hb | _, _, .whileLoop he hb => by simp [he.no_end, hb.no_end]
  | _, _, .ifElse _ he hb ho => by simp [he.no_end, hb.no_end, ho.no_end]
  | _, _, .forLoop hi hc hn hb => by simp [hi.no_end, hc.no_end, hn.no_end, hb.no_end]
  | _, _, .ret he => by simp [he.no_end]
  | _, _, .block hds => by simp [hds.no_end]

theorem Declaration.Spelled.no_end : ∀ {d : Declaration} {ts : List Kind}, d.Spelled ts →
    .endOfInput ∉ ts
  | _, _, .classDeclaration hfs => by
      simp [hfs.no_end, Declaration.no_end_superclassTokens]
  | _, _, .funDeclaration hf => by simp [hf.no_end]
  | _, _, .varDeclaration h => by simp [h.no_end]
  | _, _, .statement hb => hb.no_end

theorem Declaration.SpelledEach.no_end : ∀ {ds : List Declaration} {ts : List Kind},
    Declaration.SpelledEach ds ts → .endOfInput ∉ ts
  | _, _, .nil => by simp
  | _, _, .cons hd hds => by simp [hd.no_end, hds.no_end]

theorem FunctionTree.Spelled.no_end : ∀ {f : FunctionTree} {ts : List Kind}, f.Spelled ts →
    .endOfInput ∉ ts
  | _, _, .mk hds => by simp [hds.no_end, FunctionTree.no_end_parameterTokens]

theorem FunctionTree.SpelledEach.no_end : ∀ {fs : List FunctionTree} {ts : List Kind},
    FunctionTree.SpelledEach fs ts → .endOfInput ∉ ts
  | _, _, .nil => by simp
  | _, _, .cons hf hfs => by simp [hf.no_end, hfs.no_end]

end

end LoxCompiler
