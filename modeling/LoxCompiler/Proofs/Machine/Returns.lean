import LoxCompiler.Proofs.Machine.Scopes
import LoxCompiler.Proofs.Machine.Structure

/-! # The returns of initializers

The static rules forbid an initializer to return a value, so all that it returns is its receiver,
which it reads just before. Jumps lead to the ends of statements and to the starts of conditions,
bodies and increments of loops, and none of these places is between the two instructions.
-/

namespace LoxCompiler

open LoxCompiler.Flow (simple ofSteps)

/-! ## Code that returns the receiver -/

/-- Some code returns only what it read from the first slot just before. -/
def Step.ReturnsReceiver (code : List Step) : Prop :=
  ∀ before after, code = before ++ .simple .ret :: after →
    ∃ earlier, before = earlier ++ [.byte .getLocal 0]

/-- Some code does not start with a return. -/
def Step.Unreturned (code : List Step) : Prop := ∀ s ∈ code.head?, s.isReturn = false

/-- Something holds of the offset of every step that is no return, and of the offset after the last
one. -/
def Entries (P : Nat → Prop) (o : Nat) (code : List Step) : Prop :=
  ∀ before rest, code = before ++ rest → Step.Unreturned rest → P (o + totalSize before)

namespace Step

variable {code more : List Step}

theorem returnsReceiver_of_forall (h : ∀ s ∈ code, s.isReturn = false) : ReturnsReceiver code := by
  rintro before after rfl
  cases h (.simple .ret) (List.mem_append_right _ List.mem_cons_self)

theorem ReturnsReceiver.append (h : ReturnsReceiver code) (h' : ReturnsReceiver more) :
    ReturnsReceiver (code ++ more) := by
  intro before after heq
  rcases List.append_eq_append_iff.mp heq with ⟨rest, rfl, hmore⟩ | ⟨rest, hcode, hrest⟩
  · obtain ⟨earlier, rfl⟩ := h' rest after hmore
    exact ⟨code ++ earlier, (List.append_assoc ..).symm⟩
  · cases rest with
    | nil =>
        -- the return would be the first step of the code behind
        obtain ⟨earlier, hearlier⟩ := h' [] after hrest.symm
        exact (List.append_ne_nil_of_right_ne_nil earlier (List.cons_ne_nil _ _) hearlier.symm).elim
    | cons s rest =>
        obtain ⟨rfl, -⟩ := List.cons.inj hrest
        exact h before rest hcode

theorem ReturnsReceiver.cons {s : Step} (hs : s.isReturn = false) (h : ReturnsReceiver code) :
    ReturnsReceiver (s :: code) :=
  (returnsReceiver_of_forall (List.forall_mem_singleton.mpr hs)).append h

theorem ReturnsReceiver.unreturned (h : ReturnsReceiver code) : Unreturned code := by
  intro s hs
  cases code with
  | nil => cases hs
  | cons s' rest =>
      cases hs
      by_contra hreturn
      obtain rfl : s = .simple .ret := of_decide_eq_true (Bool.of_not_eq_false hreturn)
      obtain ⟨earlier, hearlier⟩ := h [] rest rfl
      exact List.append_ne_nil_of_right_ne_nil earlier (List.cons_ne_nil _ _) hearlier.symm

theorem Unreturned.append (h : Unreturned code) (h' : Unreturned more) :
    Unreturned (code ++ more) := by
  cases code with
  | nil => exact h'
  | cons s rest => exact h

end Step

open Step (ReturnsReceiver Unreturned)

namespace Entries

variable {P : Nat → Prop} {o : Nat} {s : Step} {code more : List Step}

theorem head (h : Entries P o code) (hcode : Unreturned code) : P o := h [] code rfl hcode

theorem last (h : Entries P o code) : P (o + totalSize code) :=
  h code [] (List.append_nil code).symm nofun

theorem append (h : Entries P o (code ++ more)) (hmore : Unreturned more) :
    Entries P o code ∧ Entries P (o + totalSize code) more := by
  constructor
  · rintro before rest rfl hrest
    exact h before (rest ++ more) (List.append_assoc ..) (hrest.append hmore)
  · rintro before rest rfl hrest
    have hoffset := h (code ++ before) rest (List.append_assoc ..).symm hrest
    rwa [totalSize_append, ← Nat.add_assoc] at hoffset

theorem tail (h : Entries P o (s :: code)) : Entries P (o + s.size) code := by
  rintro before rest rfl hrest
  have hoffset := h (s :: before) rest rfl hrest
  rwa [totalSize_cons, ← Nat.add_assoc] at hoffset

/-- Where no return stands. -/
theorem of_labelled (code : List Step) :
    Entries (fun o => ∀ s, (o, s) ∈ Step.labelled 0 code → s.isReturn = false) 0 code := by
  rintro before rest rfl hrest s hs
  rw [Step.labelled_append, Nat.zero_add] at hs
  rcases List.mem_append.mp hs with hs | hs
  · have hlt := (Step.bounds_of_mem_labelled hs).2
    dsimp only at hlt
    omega
  · cases rest with
    | nil => cases hs
    | cons s' rest =>
        rcases List.mem_cons.mp hs with heq | hs
        · cases heq
          exact hrest s rfl
        · have hle := (Step.bounds_of_mem_labelled hs).1
          have hpos := s'.size_pos
          dsimp only at hle
          omega

end Entries

/-! ## Structured code that returns the receiver -/

/-- Structured code in which every return is that of an initializer. -/
inductive Flow.Initializes : Flow → Prop
  | skip : Initializes .skip
  | step {s plain} : s.isReturn = false → Initializes (.step s plain)
  | result : Initializes (ofSteps FunctionKind.initializer.returnSteps)
  | seq {first second} : Initializes first → Initializes second → Initializes (.seq first second)
  | when {condition yes} : Initializes condition → Initializes yes →
      Initializes (.when condition yes)
  | choose {condition yes no} : Initializes condition → Initializes yes → Initializes no →
      Initializes (.choose condition yes no)
  | whileTrue {condition yes no} : Initializes condition → Initializes yes → Initializes no →
      Initializes (.whileTrue condition yes no)
  | counting {condition yes body increment no} : Initializes condition → Initializes yes →
      Initializes body → Initializes increment → Initializes no →
      Initializes (.counting condition yes body increment no)
  | forever {body} : Initializes body → Initializes (.forever body)
  | stepping {body increment} : Initializes body → Initializes increment →
      Initializes (.stepping body increment)

namespace Flow.Initializes

variable {f : Flow}

theorem simple {op : Opcode} (h : (Step.simple op).isReturn = false) : (Flow.simple op).Initializes :=
  .step h

theorem ofSteps {code : List Step} (h : ∀ s ∈ code, s.isReturn = false) :
    (Flow.ofSteps code).Initializes := by
  induction code with
  | nil => exact .skip
  | cons s code ih =>
      obtain ⟨hs, hcode⟩ := List.forall_mem_cons.mp h
      unfold Flow.ofSteps
      split
      · exact .seq (.step hs) (ih hcode)
      · exact ih hcode

theorem returnsReceiver (h : f.Initializes) : ReturnsReceiver f.flat := by
  induction h with
  | skip => exact Step.returnsReceiver_of_forall nofun
  | step hs => exact Step.returnsReceiver_of_forall (List.forall_mem_singleton.mpr hs)
  | result =>
      intro before after heq
      replace heq : [.byte .getLocal 0, .simple .ret] = before ++ Step.simple .ret :: after := heq
      match before, heq with
      | [_], heq =>
          cases heq
          exact ⟨[], rfl⟩
      | _ :: _ :: _, heq => simp at heq
  | seq _ _ ih ih' => exact ih.append ih'
  | when _ _ ih ih' => exact ih.append (.cons rfl ih')
  | choose _ _ _ ih ih' ih'' => exact ih.append (.cons rfl (ih'.append (.cons rfl ih'')))
  | whileTrue _ _ _ ih ih' ih'' => exact ih.append (.cons rfl (ih'.append (.cons rfl ih'')))
  | counting _ _ _ _ _ ih ihYes ihBody ihIncrement ihNo =>
      exact ih.append (.cons rfl (ihYes.append (.cons rfl (ihIncrement.append (.cons rfl
        (ihBody.append (.cons rfl ihNo)))))))
  | forever _ ih => exact ih.append (.cons rfl (Step.returnsReceiver_of_forall nofun))
  | stepping _ _ ih ih' =>
      exact .cons rfl (ih'.append (.cons rfl (ih.append (.cons rfl
        (Step.returnsReceiver_of_forall nofun)))))

theorem unreturned (h : f.Initializes) : Unreturned f.flat := h.returnsReceiver.unreturned

/-- Jumps lead past the code of an initializer's return, or before it. -/
theorem gates {P : Nat → Prop} {o : Nat} (h : f.Initializes) (hentries : Entries P o f.flat) :
    f.Gates P o := by
  have hjump {op : Opcode} {distance : Nat} {code : List Step} :
      Unreturned (.jump op distance :: code) := fun s hs => by cases hs; rfl
  induction h generalizing o with
  | skip | step _ => trivial
  | result => exact ⟨trivial, trivial, trivial⟩
  | seq _ hsecond ih ih' =>
      obtain ⟨hfirst, hrest⟩ := hentries.append hsecond.unreturned
      exact ⟨ih hfirst, ih' hrest⟩
  | when _ _ ih ih' =>
      obtain ⟨hcondition, hrest⟩ := hentries.append hjump
      exact ⟨ih hcondition, ih' hrest.tail, hrest.tail.last⟩
  | choose _ _ hno ih ih' ih'' =>
      obtain ⟨hcondition, hrest⟩ := hentries.append hjump
      obtain ⟨hyes, hother⟩ := hrest.tail.append hjump
      exact ⟨ih hcondition, ih' hyes, ih'' hother.tail, hother.tail.head hno.unreturned,
        hother.tail.last⟩
  | whileTrue hc _ hno ih ih' ih'' =>
      obtain ⟨hcondition, hrest⟩ := hentries.append hjump
      obtain ⟨hyes, hstop⟩ := hrest.tail.append hjump
      exact ⟨ih hcondition, ih' hyes, ih'' hstop.tail, hcondition.head hc.unreturned,
        hstop.tail.head hno.unreturned⟩
  | counting hc _ hb hi hn ih ihYes ihBody ihIncrement ihNo =>
      obtain ⟨hcondition, hrest⟩ := hentries.append hjump
      obtain ⟨hyes, hrest⟩ := hrest.tail.append hjump
      obtain ⟨hincrement, hrest⟩ := hrest.tail.append hjump
      obtain ⟨hbody, hrest⟩ := hrest.tail.append hjump
      exact ⟨⟨ih hcondition, ihYes hyes, ihIncrement hincrement, ihBody hbody, ihNo hrest.tail⟩,
        hcondition.head hc.unreturned, hincrement.head hi.unreturned, hbody.head hb.unreturned,
        hrest.tail.head hn.unreturned⟩
  | forever hb ih =>
      obtain ⟨hbody, -⟩ := hentries.append hjump
      exact ⟨ih hbody, hbody.head hb.unreturned⟩
  | stepping hb hi ih ih' =>
      obtain ⟨hincrement, hrest⟩ := hentries.tail.append hjump
      obtain ⟨hbody, -⟩ := hrest.tail.append hjump
      exact ⟨ih' hincrement, ih hbody, hentries.head hjump, hincrement.head hi.unreturned,
        hbody.head hb.unreturned⟩

end Flow.Initializes

/-! ## The code of initializers -/

namespace Fragment

/-- The code of a fragment does not return. -/
def Returnless (f : Fragment) : Prop := ∀ n, ∀ s ∈ (f n).code, s.isReturn = false

namespace Returnless

variable {f g : Fragment}

theorem of_code_nil (h : ∀ n, (f n).code = []) : f.Returnless := by
  intro n
  rw [h]
  exact nofun

theorem append (hf : f.Returnless) (hg : g.Returnless) : (f ++ g).Returnless :=
  fun n => List.forall_mem_append.mpr ⟨hf n, hg _⟩

theorem step {s : Step} (h : s.isReturn = false) : (Fragment.step s).Returnless :=
  fun _ => List.forall_mem_singleton.mpr h

theorem withItem {value : Item} {f : Nat → Fragment} (h : ∀ n, (f n).Returnless) :
    (withItem value f).Returnless := fun n => ((of_code_nil fun _ => rfl).append (h n)) n

theorem drop (h : f.Returnless) (level base count : Nat) : (drop level base count f).Returnless := by
  have hdrop (uses : List Variable) : ∀ s ∈ Piece.dropSteps level base uses count,
      s.isReturn = false := by
    induction count with
    | zero => exact nofun
    | succ count ih =>
        refine List.forall_mem_cons.mpr ⟨?_, ih⟩
        unfold Piece.dropStep
        split <;> rfl
  exact fun n => List.forall_mem_append.mpr ⟨h n, hdrop _⟩

theorem closure (level : Nat) (name : Option Symbol) (arity : Nat) (body : Fragment) :
    (closure level name arity body).Returnless :=
  (of_code_nil fun _ => rfl).append (withItem fun _ => step rfl)

end Returnless

end Fragment

open Fragment (Returnless)

section Expressions

open Compile (unaryCode binaryCode)

theorem Environment.returnless_load (env : Environment) (name : Symbol) :
    (env.load name).Returnless := by
  intro n
  rw [env.code_load]
  exact List.forall_mem_singleton.mpr (by cases env.place name n <;> rfl)

theorem Compile.isReturn_unaryCode (op : Operator) :
    ∀ s ∈ (unaryCode (.operator op)).map Step.simple, s.isReturn = false := by
  cases op <;> decide

theorem Compile.isReturn_binaryCode (op : Operator) :
    ∀ s ∈ (binaryCode (.operator op)).map Step.simple, s.isReturn = false := by
  cases op <;> decide

theorem Literal.returnless (value : Literal Symbol) : value.fragment.Returnless := by
  cases value with
  | nil => exact .step rfl
  | boolean value => cases value <;> exact .step rfl
  | number value | string value => exact .withItem fun _ => .step rfl

mutual

/-- An expression does not return. -/
theorem Expression.initializes (env : Environment) (e : Expression) (n : Nat) :
    (e.flow env n).Initializes := by
  have hlast {s : Step} (hs : s.isReturn = false) : (ofSteps [s]).Initializes :=
    .ofSteps (List.forall_mem_singleton.mpr hs)
  cases e with
  | literal value => exact .ofSteps (value.returnless n)
  | «variable» name | receiver => exact .ofSteps (env.returnless_load _ n)
  | assign name value =>
      exact .seq (Expression.initializes env value _)
        (hlast (by cases env.place name n <;> rfl))
  | superGet method =>
      exact .ofSteps (Returnless.withItem (fun _ => ((env.returnless_load _).append
        (env.returnless_load _)).append (.step rfl)) n)
  | superCall method arguments =>
      exact .seq (.seq (.seq (.ofSteps (env.returnless_load _ _))
        (Expression.initializesEach env arguments _)) (.ofSteps (env.returnless_load _ _)))
          (hlast rfl)
  | group inner => exact Expression.initializes env inner n
  | unary op operand =>
      exact .seq (Expression.initializes env operand n) (.ofSteps (Compile.isReturn_unaryCode op))
  | binary op left right =>
      exact .seq (.seq (Expression.initializes env left n) (Expression.initializes env right _))
        (.ofSteps (Compile.isReturn_binaryCode op))
  | and left right =>
      exact .when (Expression.initializes env left n)
        (.seq (.simple rfl) (Expression.initializes env right _))
  | or left right =>
      exact .choose (Expression.initializes env left n) .skip
        (.seq (.simple rfl) (Expression.initializes env right _))
  | call callee arguments =>
      exact .seq (.seq (Expression.initializes env callee n)
        (Expression.initializesEach env arguments _)) (hlast rfl)
  | get object property => exact .seq (Expression.initializes env object n) (hlast rfl)
  | set object property value =>
      exact .seq (Expression.initializes env object n)
        (.seq (Expression.initializes env value _) (hlast rfl))
  | invoke object method arguments =>
      exact .seq (Expression.initializes env object n)
        (.seq (Expression.initializesEach env arguments _) (hlast rfl))

theorem Expression.initializesEach (env : Environment) (es : List Expression) (n : Nat) :
    (Expression.flowEach env es n).Initializes := by
  cases es with
  | nil => exact .skip
  | cons e es => exact .seq (Expression.initializes env e n) (Expression.initializesEach env es _)

end

theorem Expression.initializes_initial (env : Environment) (value : Option Expression) (n : Nat) :
    (Expression.initialFlow env value n).Initializes := by
  cases value with
  | none => exact .simple rfl
  | some value => exact value.initializes env n

end Expressions

namespace Environment

variable (env : Environment)

theorem returnless_reserve : env.reserve.Returnless := .of_code_nil env.code_reserve

theorem returnless_define (index : Nat) : (env.define index).Returnless := by
  unfold define
  split
  · exact .step rfl
  · exact .of_code_nil fun _ => rfl

theorem initializes_declarationFlow (name : Symbol) (value : Option Expression) (n : Nat) :
    (env.declarationFlow name (Expression.initialFlow env value) n).Initializes :=
  .seq (Expression.initializes_initial env value _) (.ofSteps (env.returnless_define n n))

theorem initializes_dropped (last : Environment) (f : Fragment) (n : Nat) :
    (ofSteps (env.dropped last f n)).Initializes := by
  have hnone : Returnless fun m => ⟨[], [], (f m).uses, 0⟩ := .of_code_nil fun _ => rfl
  exact .ofSteps (hnone.drop env.level env.count (last.count - env.count) n)

theorem returnless_declaration (name : Symbol) {value : Fragment} (h : value.Returnless) :
    (env.declaration name value).Returnless :=
  fun n => (((Fragment.Returnless.of_code_nil (env.code_header name)).append h).append
    (env.returnless_define n)) n

theorem returnless_classFragment (name : Symbol) (superclass : Option Symbol)
    (methods : List FunctionTree) : (env.classFragment name superclass
      fun inside => FunctionTree.fragmentEach inside methods).Returnless := by
  have hmethods (inside : Environment) : (FunctionTree.fragmentEach inside methods).Returnless := by
    induction methods with
    | nil => exact .of_code_nil fun _ => rfl
    | cons f methods ih =>
        obtain ⟨name, parameters, body⟩ := f
        exact .append (.withItem fun _ => (Returnless.closure _ _ _ _).append (.step rfl)) ih
  cases superclass with
  | none => exact ((env.returnless_load name).append (hmethods _)).append (.step rfl)
  | some superclass =>
      exact (env.returnless_load superclass).append (.drop (((((env.enter.returnless_reserve.append
        (returnless_load _ name)).append (.step rfl)).append (returnless_load _ name)).append
          (hmethods _)).append (.step rfl)) _ _ _)

end Environment

theorem Flow.Initializes.rounds {condition increment : Option Flow} {body : Flow}
    (hcondition : ∀ f ∈ condition, f.Initializes) (hincrement : ∀ f ∈ increment, f.Initializes)
    (hbody : body.Initializes) : (Flow.rounds condition increment body).Initializes := by
  have hpop : (Flow.simple .pop).Initializes := .simple rfl
  cases condition with
  | none =>
      cases increment with
      | none => exact .forever hbody
      | some increment => exact .stepping hbody (.seq (hincrement increment rfl) hpop)
  | some condition =>
      cases increment with
      | none => exact .whileTrue (hcondition condition rfl) (.seq hpop hbody) hpop
      | some increment =>
          exact .counting (hcondition condition rfl) hpop hbody
            (.seq (hincrement increment rfl) hpop) hpop

theorem Initializer.initializes (env : Environment) (first : Initializer) (n : Nat) :
    (first.flow env n).Initializes := by
  cases first with
  | absent => exact .skip
  | «variable» name value => exact env.initializes_declarationFlow name value n
  | expression value => exact .seq (value.initializes env n) (.simple rfl)

mutual

/-- The static rules allow a statement of an initializer to return nothing but the receiver. -/
theorem Statement.initializes {env : Environment} (hkind : env.kind = .initializer) (s : Statement)
    (hallowed : s.Allowed env) (n : Nat) : (s.flow env n).Initializes := by
  cases s with
  | expression value | print value => exact .seq (value.initializes env n) (.simple rfl)
  | ifThen condition body =>
      exact .choose (condition.initializes env n)
        (.seq (.simple rfl) (Statement.initializes hkind body hallowed.2 _)) (.simple rfl)
  | ifElse condition body otherwise =>
      exact .choose (condition.initializes env n)
        (.seq (.simple rfl) (Statement.initializes hkind body hallowed.2.1 _))
        (.seq (.simple rfl) (Statement.initializes hkind otherwise hallowed.2.2 _))
  | whileLoop condition body =>
      exact .whileTrue (condition.initializes env n)
        (.seq (.simple rfl) (Statement.initializes hkind body hallowed.2 _)) (.simple rfl)
  | forLoop first condition increment body =>
      have hinside : (first.after env.enter).kind = .initializer := by
        rw [← hkind]
        cases first with
        | absent | expression value => rfl
        | «variable» name value =>
            show (env.enter.declare name).kind = _
            rw [env.enter.declare_eq]
            rfl
      have hclause (value : Option Expression) (m : Nat) :
          ∀ f ∈ value.map (Expression.flow (first.after env.enter) · m), f.Initializes := by
        intro f hf
        obtain ⟨e, -, rfl⟩ := Option.map_eq_some_iff.mp hf
        exact e.initializes _ m
      exact .seq (.seq (first.initializes _ n) (.rounds (hclause condition _) (hclause increment _)
        (Statement.initializes hinside body hallowed.2.2.2 _))) (env.initializes_dropped _ _ n)
  | ret value =>
      cases value with
      | none =>
          rw [Statement.flow, hkind]
          exact .result
      | some value => exact (hallowed.2.1 hkind).elim
  | block inner =>
      have hinside : env.enter.kind = .initializer := hkind
      exact .seq (Declaration.initializesEach hinside inner hallowed n)
        (env.initializes_dropped _ _ n)

theorem Declaration.initializes {env : Environment} (hkind : env.kind = .initializer)
    (d : Declaration) (hallowed : d.Allowed env) (n : Nat) : (d.flow env n).Initializes := by
  cases d with
  | classDeclaration name superclass methods =>
      exact .ofSteps (Returnless.withItem (fun index => ((env.returnless_reserve.append
        (.step rfl)).append (env.returnless_define index)).append
          (Environment.returnless_classFragment _ name superclass methods)) n)
  | funDeclaration f =>
      obtain ⟨name, parameters, body⟩ := f
      exact .ofSteps (env.returnless_declaration name (.closure _ _ _ _) n)
  | varDeclaration name value => exact env.initializes_declarationFlow name value n
  | statement s => exact Statement.initializes hkind s hallowed n

theorem Declaration.initializesEach {env : Environment} (hkind : env.kind = .initializer)
    (ds : List Declaration) (hallowed : Declaration.AllowedEach env ds) (n : Nat) :
    (Declaration.flowEach env ds n).Initializes := by
  cases ds with
  | nil => exact .skip
  | cons d ds =>
      have hafter : (d.after env).kind = .initializer := by
        rw [← hkind]
        cases d with
        | classDeclaration name _ _ | funDeclaration _ | varDeclaration name _ =>
            rw [Declaration.after, env.declare_eq]
        | statement s => rfl
      exact .seq (Declaration.initializes hkind d hallowed.1 n)
        (Declaration.initializesEach hafter ds hallowed.2 _)

end

/-- An initializer returns its receiver, which it reads just before. -/
theorem FunctionBody.initializes {b : FunctionBody} (hkind : b.env.kind = .initializer)
    (hallowed : Declaration.AllowedEach b.inside b.body) : b.wholeFlow.Initializes := by
  have hinside : b.inside.kind = .initializer := by
    rw [← hkind, inside, Environment.declareEach_eq]
  refine .seq (Declaration.initializesEach hinside b.body hallowed _) ?_
  rw [hkind]
  exact .result

/-! ## The returns of compiled initializers -/

/-- A function returns its receiver only: every return is directly after an instruction that reads
the first slot, and no jump leads to it. -/
def Function.ReturnsReceiver (g : Function UInt8) : Prop :=
  ∀ o, (o, .simple .ret) ∈ g.instructions →
    (∃ start, [(start, .byte .getLocal 0), (o, .simple .ret)] <:+: g.instructions) ∧
      ∀ start op distance, (start, .jump op distance o) ∉ g.instructions

theorem Step.eq_of_instruction_ret {s : Step} {level : Nat} {captures : List Variable} {o : Nat}
    (h : s.instruction level captures o = .simple .ret) : s = .simple .ret := by
  cases s with
  | simple op =>
      cases h
      rfl
  | _ => cases h

/-- What holds of where the jumps of a plan lead holds of where its instructions jump to. -/
theorem Step.Lands.of_instruction {P : Nat → Prop} {s : Step} {level : Nat}
    {captures : List Variable} {o distance target : Nat} {op : Opcode} (hs : s.Lands P o)
    (hpending : ∀ op, s ≠ .pending op)
    (h : s.instruction level captures o = .jump op distance target) : P target := by
  cases s with
  | jump op' distance' =>
      cases h
      by_cases hloop : op = .loop
      · rw [Lands, if_pos hloop] at hs
        obtain ⟨target, htarget, -, hP⟩ := hs
        rwa [Instruction.jumpTarget, if_pos hloop, ← htarget, Nat.add_sub_cancel]
      · rw [Lands, if_neg hloop] at hs
        rwa [Instruction.jumpTarget, if_neg hloop]
  | pending op' => exact (hpending op' rfl).elim
  | _ => cases h

/-- Every return of code that returns the receiver is directly after a read of the first slot. -/
theorem Step.ReturnsReceiver.infix_decoded {code : List Step} (h : ReturnsReceiver code) {level : Nat}
    {captures : List Variable} {o : Nat} (ho : (o, .simple .ret) ∈ decoded level captures 0 code) :
    ∃ start, [(start, .byte .getLocal 0), (o, .simple .ret)] <:+: decoded level captures 0 code := by
  obtain ⟨before, s, after, rfl, heq⟩ := mem_decoded.mp ho
  obtain ⟨rfl, hs⟩ := Prod.mk.inj heq
  obtain rfl := eq_of_instruction_ret hs.symm
  obtain ⟨earlier, rfl⟩ := h before after rfl
  refine ⟨0 + totalSize earlier, decoded level captures 0 earlier,
    decoded level captures (0 + totalSize (earlier ++ [.byte .getLocal 0]) + 1) after, ?_⟩
  rw [decoded_append, decoded_append, List.append_assoc, List.append_assoc]
  rfl

theorem FunctionBody.CompiledTo.returnsReceiver {b : FunctionBody} {g : Function UInt8}
    (h : b.CompiledTo g) (hkind : b.env.kind = .initializer)
    (hallowed : Declaration.AllowedEach b.inside b.body) : g.ReturnsReceiver := by
  have hwhole := b.initializes hkind hallowed
  have hcode := h.proper.flat_wholeFlow
  have hreturns := hwhole.returnsReceiver
  have hlands := (hwhole.gates (.of_labelled _)).jumpsLand
  rw [hcode] at hreturns hlands
  intro o ho
  constructor
  · rw [h.instructions_eq] at ho ⊢
    exact hreturns.infix_decoded ho
  · intro start op distance hjump
    obtain ⟨s, hs, heq, hland⟩ := h.exists_lands hlands hjump
    obtain ⟨s', hs', hret⟩ := h.mem_instructions_iff.mp ho
    obtain rfl := Step.eq_of_instruction_ret hret.symm
    have hpending : ∀ op, s ≠ .pending op := by
      rintro op rfl
      exact h.refers hs
    cases hland.of_instruction hpending heq.symm _ hs'

end LoxCompiler
