import LoxCompiler.Proofs.Simulation.Function

/-! # Compiling statements and declarations

A statement leaves the environment as it is, and a declaration changes it for what follows. Both
are accepted exactly if the static rules allow them, and compile to their fragments.
-/

namespace LoxCompiler

open Compile

set_option synthInstance.maxSize 4096

variable {β : Type} {w : Width β}

/-- No token is an identifier with a name of the language. -/
def ImplicitNames.Spared (names : ImplicitNames) (ts : List Kind) : Prop :=
  ∀ kind ∈ ts, kind ≠ .identifier names.this ∧ kind ≠ .identifier names.super

theorem ImplicitNames.spared_append {names : ImplicitNames} {ts us : List Kind} :
    names.Spared (ts ++ us) ↔ names.Spared ts ∧ names.Spared us :=
  List.forall_mem_append

theorem ImplicitNames.spared_cons {names : ImplicitNames} {kind : Kind} {ts : List Kind} :
    names.Spared (kind :: ts) ↔
      (kind ≠ .identifier names.this ∧ kind ≠ .identifier names.super) ∧ names.Spared ts :=
  List.forall_mem_cons

/-- A statement that some tokens spell compiles to its fragment, exactly if it is allowed. -/
def Statement.Compiles (w : Width β) (s : Statement) (ts : List Kind) : Prop :=
  ∀ {D : Drafts}, D.current.fresh = none → D.names.Spared ts →
    Meets D ts (s.compile : Compile w.settings Unit) () (s.Allowed D.env)
      (D.emit (s.fragment D.env))

/-- A declaration that some tokens spell compiles to its fragment, exactly if it is allowed. -/
def Declaration.Compiles (w : Width β) (d : Declaration) (ts : List Kind) : Prop :=
  ∀ {D : Drafts}, D.current.fresh = none → D.names.Spared ts →
    Meets D ts (d.compile : Compile w.settings Unit) () (d.Allowed D.env)
      ((D.emit (d.fragment D.env)).moveTo (d.after D.env))

/-- Declarations in a row compile to their fragments, exactly if they are allowed. -/
def Declaration.CompilesEach (w : Width β) (ds : List Declaration) (ts : List Kind) : Prop :=
  ∀ {D : Drafts}, D.current.fresh = none → D.names.Spared ts →
    Meets D ts (Declaration.compileEach ds : Compile w.settings Unit) ()
      (Declaration.AllowedEach D.env ds)
      ((D.emit (Declaration.fragmentEach D.env ds)).moveTo (Declaration.afterEach D.env ds))

/-- A function that some tokens spell after its name compiles to its fragment, exactly if it is
allowed. -/
def FunctionTree.Compiles (w : Width β) (f : FunctionTree) (ts : List Kind) : Prop :=
  ∀ {D : Drafts} (kind : FunctionKind), D.current.fresh = none → D.names.Spared ts →
    Meets D ts (FunctionTree.compile kind f : Compile w.settings Unit) ()
      (FunctionTree.Allowed kind D.env f) (D.emit (FunctionTree.fragment kind D.env f))

/-- Methods in a row compile to their fragments, exactly if they are allowed. -/
def FunctionTree.CompilesEach (w : Width β) (fs : List FunctionTree) (ts : List Kind) : Prop :=
  ∀ {D : Drafts}, D.current.fresh = none → D.names.Spared ts →
    Meets D ts (FunctionTree.compileMethods fs : Compile w.settings Unit) ()
      (FunctionTree.AllowedEach D.env fs) (D.emit (FunctionTree.fragmentEach D.env fs))

/-! ## Scopes of declarations -/

section Scopes

variable (env : Environment) {scope : List Symbol} {outer : List (List Symbol)}
  (hscopes : env.scopes = scope :: outer)
include hscopes

theorem Environment.scopes_declare (name : Symbol) :
    (env.declare name).scopes = (name :: scope) :: outer := by
  unfold Environment.declare
  rw [hscopes]

theorem Initializer.scopes_after (i : Initializer) : ∃ scope, (i.after env).scopes = scope :: outer := by
  cases i with
  | «variable» name _ => exact ⟨_, Environment.scopes_declare env hscopes name⟩
  | _ => exact ⟨_, hscopes⟩

theorem Declaration.scopes_after (d : Declaration) : ∃ scope, (d.after env).scopes = scope :: outer := by
  cases d with
  | statement _ => exact ⟨_, hscopes⟩
  | _ => exact ⟨_, Environment.scopes_declare env hscopes _⟩

theorem Declaration.scopes_afterEach (ds : List Declaration) :
    ∃ scope, (Declaration.afterEach env ds).scopes = scope :: outer := by
  induction ds generalizing env scope with
  | nil => exact ⟨_, hscopes⟩
  | cons d ds ih =>
      obtain ⟨_, h⟩ := Declaration.scopes_after env hscopes d
      exact ih _ h

end Scopes

namespace Drafts

variable {D : Drafts}

theorem env_moveTo_initializer (i : Initializer) :
    (D.moveTo (i.after D.env)).env = i.after D.env := by
  cases i with
  | «variable» name _ => exact D.env_moveTo_declare name
  | _ => rfl

theorem env_moveTo_after (d : Declaration) : (D.moveTo (d.after D.env)).env = d.after D.env := by
  cases d with
  | statement _ => rfl
  | _ => exact D.env_moveTo_declare _

end Drafts

/-! ## Expressions in statements -/

section Expressions

variable {D : Drafts} (hfresh : D.current.fresh = none)
include hfresh

theorem Drafts.plain_of_fresh : D.Plain := by
  unfold Drafts.Plain
  rw [hfresh]
  exact ⟨nofun, nofun⟩

/-- An expression where every local can be read. -/
theorem Expression.Spelled.meets {level : Precedence} {e : Expression} {ts : List Kind}
    (he : e.Spelled level ts) : Meets D ts (e.compile : Compile w.settings Unit) ()
      (e.Allowed D.env none) (D.emit (e.fragment D.env)) := by
  have h := Expression.compiles (w := w) he (Drafts.plain_of_fresh hfresh)
  rwa [hfresh] at h

end Expressions

namespace Compile.Meets

variable {D D' : Drafts} {ts : List Kind} {α : Type} {P : Prop}

/-- The end of a scope, at the place before it. -/
theorem leaveScope (last : Environment) (hv : D.Valid) {F : Fragment} {scope : List Symbol}
    (hlast : last.scopes = scope :: D.current.scopes) (hfresh : D.current.fresh = none) :
    Meets ((D.emit F).moveTo last) [] (Compile.endScope : Compile w.settings Unit) () True
      (D.emit (D.env.leave last F)) := by
  rw [← Drafts.leave_emit hv F hlast]
  exact endScope (D := (D.emit F).moveTo last) hlast hfresh

/-- The offset of the next cell is what the drafts say. -/
theorem codeSize_bind {k : Nat → Compile w.settings α} {v : α}
    (h : Meets D ts (k D.size) v P D') : Meets D ts (codeSize >>= k) v P D' := by
  unfold codeSize
  rw [bind_assoc]
  exact frame_bind (fun f hf => by rw [pure_bind, hf.size_code]; rfl) h

/-- A declaration with its value, given what the value compiles to. -/
theorem variable_of_initial (ts : List Kind) {x : Symbol} {value : Option Expression}
    (hfresh : D.current.fresh = none)
    (hvalue : ∀ E : Drafts, E.env = D.env → E.current.fresh = D.env.fresh x →
      Meets E ts (compileInitial value : Compile w.settings Unit) ()
        (Expression.AllowedOption D.env (D.env.fresh x) value)
        (E.emit (Expression.initial D.env value))) :
    Meets D (.identifier x :: (ts ++ [.semicolon]))
      (compileVariable x value : Compile w.settings Unit) ()
      (Declaration.VariableAllowed D.env x value)
      ((D.emit (D.env.declaration x (Expression.initial D.env value))).moveTo
        (D.env.declare x)) := by
  let D₁ := (D.emit (D.env.header x)).emit (Expression.initial D.env value)
  have hdefine := defineVariable (w := w) (D := D₁) x D.nameIndex hfresh
  rw [Drafts.emit_declaration]
  unfold compileVariable Declaration.VariableAllowed
  exact (declareNamed x hfresh).bind fun _ =>
    (hvalue ((D.emit (D.env.header x)).hold (D.env.fresh x)) rfl rfl).last fun _ => .token hdefine

theorem compileVariable {x : Symbol} {value : Option Expression} (hfresh : D.current.fresh = none)
    (hspared : D.names.Spared ts) (hts : Declaration.VariableSpelled x value ts) :
    Meets D ts (compileVariable x value : Compile w.settings Unit) ()
      (Declaration.VariableAllowed D.env x value)
      ((D.emit (D.env.declaration x (Expression.initial D.env value))).moveTo
        (D.env.declare x)) := by
  cases hts with
  | bare =>
      exact variable_of_initial [] hfresh fun _ _ _ => Meets.emit .pushNil
  | initial he =>
      refine variable_of_initial _ hfresh fun E henv hE => ?_
      have hne : ∀ y, y = D.names.this ∨ y = D.names.super → D.env.fresh x ≠ some y := by
        intro y hy hx
        have hx : x = y := by
          unfold Environment.fresh at hx
          split at hx
          · cases hx
          · exact Option.some.inj hx
        have hspared := (ImplicitNames.spared_cons.mp hspared).1
        subst hx
        rcases hy with hy | hy
        · exact hspared.1 (congrArg _ hy)
        · exact hspared.2 (congrArg _ hy)
      have hplain : E.Plain := by
        have hnames : E.names = D.names := congrArg Environment.names henv
        unfold Drafts.Plain
        rw [hE, hnames]
        exact ⟨hne _ (.inl rfl), hne _ (.inr rfl)⟩
      have hvalue := Expression.compiles (w := w) he hplain
      rw [henv, hE] at hvalue
      exact .token hvalue

theorem initializer {i : Initializer} (hfresh : D.current.fresh = none)
    (hspared : D.names.Spared ts) (hi : i.Spelled ts) :
    Meets D ts (i.compile : Compile w.settings Unit) () (i.Allowed D.env)
      ((D.emit (i.fragment D.env)).moveTo (i.after D.env)) := by
  cases hi with
  | absent =>
      rw [Initializer.fragment, Drafts.emit_empty]
      exact Meets.expect _
  | «variable» hts => exact .token (compileVariable hfresh (ImplicitNames.spared_cons.mp hspared).2 hts)
  | expression he =>
      rw [Initializer.fragment, Drafts.emit_append]
      exact (he.meets hfresh).last fun _ => .token (.emit _)

section Loops

variable {us vs ws : List Kind} {condition increment : Option Expression} {b : Statement}
  {k : Compile w.settings Unit} [Orderly k] (hb : b.Compiles w ws)
  (hfresh : D.current.fresh = none) (hspared : D.names.Spared ws)
include hb hfresh hspared

/-- The increment and the body of a loop, with the jumps back. -/
theorem rounds {start : Nat} (hstart : start ≤ D.size)
    (hn : Expression.SpelledOption increment vs)
    (hk : Meets (D.emit (Fragment.counting.rounds
      (increment.map (Expression.fragment D.env)) (b.fragment D.env) (D.size - start))) [] k () True D') :
    Meets D (vs ++ .closeParen :: ws)
      (do
        let next ← compileIncrement start increment
        b.compile
        emitLoop next
        k) ()
      (Expression.AllowedOption D.env none increment ∧ b.Allowed D.env) D' := by
  cases hn with
  | none =>
      have hafter : D.emit (.loop (D.size - start) (b.fragment D.env)) =
          (D.emit (b.fragment D.env)).emit
            (.step (.jump .loop ((D.emit (b.fragment D.env)).size - start + 3))) := by
        rw [Fragment.loop, Drafts.emit_sized, Drafts.size_emit]
        congr 4
        omega
      have hloop := Meets.emitLoop (w := w) (D := D.emit (b.fragment D.env)) start
        (by rw [Drafts.size_emit]; omega)
      simp only [compileIncrement, bind_assoc, pure_bind, Expression.AllowedOption, true_and]
      refine .token ((hb hfresh hspared).finish fun _ => hloop.silent ?_)
      rw [← hafter]
      exact hk
  | @some i vs he =>
      let F := i.fragment D.env ++ .simple .pop
      let distance := D.size - start + 3 + (F D.constantCount).size + 3
      let D₁ := D.emit (.jumpOver .jump 0 (F ++ .step (.jump .loop distance)))
      have hsize : D₁.size = D.size + 3 + (F D.constantCount).size + 3 := by
        simp only [D₁, Drafts.size_emit, Fragment.size_jumpOver, Fragment.append_apply,
          Piece.size_append, Fragment.size_step, Step.size]
        omega
      have hbefore : ((D.emit (.step (.pending .jump))).emit F).size =
          D.size + 3 + (F D.constantCount).size := by
        simp [Step.size]
      have hafter : D.emit (Fragment.counting.rounds (some (i.fragment D.env)) (b.fragment D.env)
          (D.size - start)) = (D₁.emit (b.fragment D.env)).emit
            (.step (.jump .loop ((D₁.emit (b.fragment D.env)).size - (D.size + 3) + 3))) := by
        have hjump : D.emit (.jumpOver .jump 0 (.loop (D.size - start + 3) F)) = D₁ := rfl
        rw [Fragment.counting.rounds, Drafts.emit_sized, Drafts.emit_append, hjump]
        congr 3
        have htotal : (D₁.emit (b.fragment D.env)).size = D.size +
            ((Fragment.jumpOver .jump 0 (.loop (D.size - start + 3) F) ++ b.fragment D.env)
              D.constantCount).size := by
          rw [← hjump, ← Drafts.emit_append, Drafts.size_emit]
        rw [htotal]
        show ((Fragment.jumpOver .jump 0 (.loop (D.size - start + 3) F) ++ b.fragment D.env)
          D.constantCount).size = _
        rw [Drafts.size_emit] at htotal
        omega
      have hback := Meets.emitLoop (w := w) (D := (D.emit (.step (.pending .jump))).emit F)
        start (by omega)
      have hloop := Meets.emitLoop (w := w) (D := D₁.emit (b.fragment D.env)) (D.size + 3)
        (by rw [Drafts.size_emit]; omega)
      have hdistance : D.size + 3 + (F D.constantCount).size - start + 3 = distance := by omega
      rw [hbefore, hdistance, ← (D.emit (.step (.pending .jump))).emit_append] at hback
      simp only [compileIncrement, bind_assoc, pure_bind, Expression.AllowedOption]
      refine (Meets.emitJump .jump).silent (codeSize_bind ?_)
      refine (he.meets (D := D.emit _) hfresh).bind fun _ => (Meets.emit .pop).silent (.token ?_)
      rw [← (D.emit (.step (.pending .jump))).emit_append]
      refine hback.silent ((Meets.patchJump .jump _).silent
        ((hb (D := D₁) hfresh hspared).finish fun _ => ?_))
      rw [Drafts.size_emit, Fragment.size_step]
      refine hloop.silent ?_
      rw [← hafter]
      exact hk

/-- A loop from its condition on, and what comes after it. -/
theorem counting (he : Expression.SpelledOption condition us)
    (hn : Expression.SpelledOption increment vs)
    (hk : Meets (D.emit (.counting (condition.map (Expression.fragment D.env))
      (increment.map (Expression.fragment D.env)) (b.fragment D.env))) [] k () True D') :
    Meets D (us ++ .semicolon :: (vs ++ .closeParen :: ws))
      (do
        let start ← codeSize
        let exit ← compileCondition condition
        let next ← compileIncrement start increment
        b.compile
        emitLoop next
        leaveLoop exit
        k) ()
      (Expression.AllowedOption D.env none condition ∧
        Expression.AllowedOption D.env none increment ∧ b.Allowed D.env) D' := by
  refine codeSize_bind ?_
  cases he with
  | none =>
      simp only [compileCondition, leaveLoop, bind_assoc, pure_bind, Expression.AllowedOption,
        true_and]
      refine .token (rounds hb hfresh hspared (Nat.le_refl _) hn ?_)
      rw [Nat.sub_self]
      exact hk
  | @some e us he =>
      let E := e.fragment D.env
      let D₁ := (D.emit E).emit (.step (.pending .jumpIfFalse))
      let R := Fragment.counting.rounds (increment.map (Expression.fragment D.env))
        (b.fragment D.env) ((E D.constantCount).size + 4)
      have hsize : (D₁.emit (.simple .pop)).size - D.size = (E D.constantCount).size + 4 := by
        simp only [D₁, Drafts.size_emit, Fragment.size_step, Fragment.size_simple, Step.size]
        omega
      have hafter : D.emit (.counting (some E) (increment.map (Expression.fragment D.env))
          (b.fragment D.env)) = ((D.emit E).emit (.jumpOver .jumpIfFalse 0 (.simple .pop ++ R))).emit
            (.simple .pop) := by
        rw [Fragment.counting, Drafts.emit_sized, Drafts.emit_append]
      simp only [compileCondition, leaveLoop, bind_assoc, pure_bind, Expression.AllowedOption]
      refine (he.meets hfresh).bind fun _ => .token ((Meets.emitJump _).silent
        ((Meets.emit .pop).silent (rounds (D := D₁.emit (.simple .pop)) hb hfresh hspared
          (by omega) hn ?_)))
      have hround : (D₁.emit (.simple .pop)).emit R = D₁.emit (.simple .pop ++ R) :=
        (D₁.emit_append _ _).symm
      show Meets ((D₁.emit (.simple .pop)).emit (Fragment.counting.rounds _ _
        ((D₁.emit (.simple .pop)).size - D.size))) _ _ _ _ _
      rw [hsize]
      show Meets ((D₁.emit (.simple .pop)).emit R) _ _ _ _ _
      rw [hround]
      refine (Meets.patchJump (D := D.emit E) .jumpIfFalse _).silent ((Meets.emit .pop).silent ?_)
      rw [← hafter]
      exact hk

end Loops

/-- The first branch of a conditional after its condition, with the jumps around both branches. -/
theorem branch (us : List Kind) {b : Statement} {Q : Prop} {k : Nat → Compile w.settings Unit}
    [∀ done, Orderly (k done)] (hb : b.Compiles w ts) (hfresh : D.current.fresh = none)
    (hspared : D.names.Spared ts)
    (hk : Meets (((D.emit (.jumpOver .jumpIfFalse 3 (.simple .pop ++ b.fragment D.env))).emit
      (.step (.pending .jump))).emit (.simple .pop)) us
      (k ((D.emit (.jumpOver .jumpIfFalse 3 (.simple .pop ++ b.fragment D.env))).size + 1)) () Q
      D') :
    Meets D (ts ++ us)
      (do
        let otherwise ← emitJump .jumpIfFalse
        emit .pop
        b.compile
        let done ← emitJump .jump
        patchJump otherwise
        emit .pop
        k done) () (b.Allowed D.env ∧ Q) D' := by
  let D₁ := D.emit (.step (.pending .jumpIfFalse))
  let F := .simple .pop ++ b.fragment D.env
  have hbody : (D₁.emit (.simple .pop)).emit (b.fragment D.env) = D₁.emit F :=
    (D₁.emit_append _ _).symm
  have hover : D.emit (.jumpOver .jumpIfFalse 0 (F ++ .step (.pending .jump))) =
      (D.emit (.jumpOver .jumpIfFalse 3 F)).emit (.step (.pending .jump)) := by
    rw [Fragment.jumpOver_append_step, Drafts.emit_append]
    rfl
  have hdone : (D₁.emit F).size = (D.emit (.jumpOver .jumpIfFalse 3 F)).size := by
    simp only [D₁, Drafts.size_emit, Drafts.constantCount_emit, Fragment.size_step,
      Fragment.size_jumpOver, Fragment.constants_step, List.length_nil, Step.size, Nat.add_assoc,
      Nat.add_zero]
  refine (Meets.emitJump .jumpIfFalse).silent ((Meets.emit .pop).silent
    ((hb (D := D₁.emit _) hfresh hspared).bind fun _ => ?_))
  show Meets ((D₁.emit (.simple .pop)).emit (b.fragment D.env)) _ _ _ _ _
  rw [hbody]
  refine (Meets.emitJump .jump).silent ?_
  rw [← D₁.emit_append]
  refine (Meets.patchJump .jumpIfFalse _).silent ((Meets.emit .pop).silent ?_)
  rw [hover, hdone]
  exact hk

end Compile.Meets

namespace Statement

variable {e : Expression} {b o : Statement} {ts us vs ws : List Kind}

theorem compiles_expression (he : e.Spelled .assignment ts) :
    Compiles w (.expression e) (ts ++ [.semicolon]) := by
  intro D hfresh _
  simp only [compile, Allowed, fragment, Drafts.emit_append]
  exact (he.meets hfresh).last fun _ => .token (.emit .pop)

theorem compiles_print (he : e.Spelled .assignment ts) :
    Compiles w (.print e) (.keyword .printWord :: ts ++ [.semicolon]) := by
  intro D hfresh _
  simp only [compile, Allowed, fragment, Drafts.emit_append]
  exact .token ((he.meets hfresh).last fun _ => .token (.emit .print))

theorem compiles_ifThen (he : e.Spelled .assignment ts) (hb : b.Compiles w us) :
    Compiles w (.ifThen e b) (.keyword .ifWord :: .openParen :: ts ++ .closeParen :: us) := by
  intro D hfresh hspared
  simp only [ImplicitNames.spared_append, ImplicitNames.spared_cons, List.cons_append] at hspared
  obtain ⟨_, _, _, _, hspared⟩ := hspared
  simp only [compile, Allowed, fragment, Drafts.emit_append]
  have hbranch := Meets.branch [] (D := D.emit (e.fragment D.env)) (k := patchJump) hb
    hfresh hspared (.patchJump .jump (.simple .pop))
  rw [List.append_nil] at hbranch
  exact .token (.token ((he.meets hfresh).bind fun _ => .token (hbranch.congr fun _ => by simp)))

theorem compiles_ifElse (he : e.Spelled .assignment ts) (hb : b.Compiles w us)
    (ho : o.Compiles w vs) : Compiles w (.ifElse e b o)
      (.keyword .ifWord :: .openParen :: ts ++ .closeParen :: us ++ .keyword .elseWord :: vs) := by
  intro D hfresh hspared
  simp only [ImplicitNames.spared_append, ImplicitNames.spared_cons, List.cons_append] at hspared
  obtain ⟨_, _, ⟨_, _, hspared⟩, _, hspared'⟩ := hspared
  let D₁ := D.emit (e.fragment D.env)
  let D₂ := D₁.emit (.jumpOver .jumpIfFalse 3 (.simple .pop ++ b.fragment D.env))
  let D₃ := D₂.emit (.step (.pending .jump))
  have hbody : (D₃.emit (.simple .pop)).emit (o.fragment D.env) =
      D₃.emit (.simple .pop ++ o.fragment D.env) :=
    (D₃.emit_append _ _).symm
  have hother := ho (D := D₃.emit (.simple .pop)) hfresh hspared'
  have hdone := Meets.patchJump (w := w) (D := D₂) .jump (.simple .pop ++ o.fragment D.env)
  rw [← hbody] at hdone
  simp only [compile, Allowed, fragment, Drafts.emit_append, List.append_assoc, List.cons_append]
  exact .token (.token ((he.meets hfresh).bind fun _ => .token
    (Meets.branch _ (D := D₁) hb hfresh hspared (.token (hother.finish fun _ => hdone)))))

theorem compiles_whileLoop (he : e.Spelled .assignment ts) (hb : b.Compiles w us) :
    Compiles w (.whileLoop e b) (.keyword .whileWord :: .openParen :: ts ++ .closeParen :: us) := by
  intro D hfresh hspared
  simp only [ImplicitNames.spared_append, ImplicitNames.spared_cons, List.cons_append] at hspared
  obtain ⟨_, _, _, _, hspared⟩ := hspared
  let D₁ := D.emit (e.fragment D.env)
  let D₂ := D₁.emit (.step (.pending .jumpIfFalse))
  let F := .simple .pop ++ b.fragment D.env
  let distance := (D₂.emit F).size - D.size + 3
  have hbody : (D₂.emit (.simple .pop)).emit (b.fragment D.env) = D₂.emit F :=
    (D₂.emit_append _ _).symm
  have hloop := Meets.emitLoop (w := w) (D := D₂.emit F) D.size (by
    simp only [D₁, D₂, Drafts.size_emit]
    omega)
  have hover : D₁.emit (.jumpOver .jumpIfFalse 0 (F ++ .step (.jump .loop distance))) =
      D.emit (.loop 0 (e.fragment D.env ++ .jumpOver .jumpIfFalse 3 F)) := by
    have hsize : 0 + ((e.fragment D.env ++ .jumpOver .jumpIfFalse 3 F) D.constantCount).size + 3 =
        distance := by
      simp only [distance, D₁, D₂, Drafts.size_emit, Drafts.constantCount_emit,
        Fragment.append_apply, Fragment.size_step, Fragment.size_jumpOver, Fragment.constants_step,
        List.length_nil, Piece.size_append, Step.size, Nat.add_zero]
      omega
    rw [Fragment.jumpOver_append_step, Drafts.emit_append, Fragment.loop, Drafts.emit_sized, hsize,
      Drafts.emit_append]
    rfl
  simp only [compile, Allowed, fragment, Drafts.emit_append]
  refine .token (Meets.codeSize_bind (.token ((he.meets hfresh).bind fun _ => .token
    ((Meets.emitJump .jumpIfFalse).silent ((Meets.emit .pop).silent
      ((hb (D := D₂.emit (.simple .pop)) hfresh hspared).finish fun _ => ?_))))))
  show Meets ((D₂.emit (.simple .pop)).emit (b.fragment D.env)) _ _ _ _ _
  rw [hbody]
  refine hloop.silent ?_
  rw [← D₂.emit_append]
  refine (Meets.patchJump (D := D₁) .jumpIfFalse _).silent ?_
  rw [hover]
  exact Meets.emit .pop

theorem compiles_forLoop {i : Initializer} {c n : Option Expression} (hi : i.Spelled ts)
    (hc : Expression.SpelledOption c us) (hn : Expression.SpelledOption n vs)
    (hb : b.Compiles w ws) : Compiles w (.forLoop i c n b)
      (.keyword .forWord :: .openParen :: ts ++ us ++ .semicolon :: vs ++ .closeParen :: ws) := by
  intro D hfresh hspared
  simp only [ImplicitNames.spared_append, ImplicitNames.spared_cons, List.cons_append] at hspared
  obtain ⟨_, _, ⟨⟨hspared, _⟩, _⟩, _, hspared'⟩ := hspared
  let inside := i.after D.env.enter
  let I := i.fragment D.env.enter
  let C := Fragment.counting (c.map (Expression.fragment inside))
    (n.map (Expression.fragment inside)) (b.fragment inside)
  let D₁ := (D.emit I).moveTo inside
  have henv : D₁.env = inside := Drafts.env_moveTo_initializer (D := D.moveTo D.env.enter) i
  have hloop : D₁.emit C = (D.emit (I ++ C)).moveTo inside :=
    congrArg (·.moveTo inside) (D.emit_append I C).symm
  obtain ⟨scope, hscopes⟩ := Initializer.scopes_after D.env.enter rfl i
  simp only [compile, Allowed, fragment, List.append_assoc, List.cons_append]
  refine Meets.of_valid (fun _ => Drafts.fits_of_emit) fun hv => ?_
  have hleave := Meets.leaveScope (w := w) (F := I ++ C) _ hv hscopes hfresh
  rw [← hloop] at hleave
  have hcounting := Meets.counting (D := D₁) hb hfresh hspared' hc hn (by rwa [henv])
  rw [henv] at hcounting
  exact .token (Meets.beginScope.silent (.token
    ((Meets.initializer (D := D.moveTo D.env.enter) hfresh hspared hi).bind fun _ => hcounting)))

theorem compiles_ret_none : Compiles w (.ret none) [.keyword .returnWord, .semicolon] := by
  intro D hfresh hspared
  let rest : Compile w.settings Unit := do
    expect .semicolon
    emitReturn
  simp only [compile, Allowed, fragment]
  refine .token (Meets.frame_bind (l := if D.current.kind = .script then
    report .returnFromScript >>= fun _ => rest else rest) (fun f hf => by rw [hf.kind]) ?_)
  exact (Meets.guard not_cleanly_report fun _ => .token Meets.emitReturn).congr fun _ => by
    rw [and_true]
    exact Iff.rfl

theorem compiles_ret_some (he : e.Spelled .assignment ts) :
    Compiles w (.ret (some e)) (.keyword .returnWord :: ts ++ [.semicolon]) := by
  intro D hfresh hspared
  let value : Compile w.settings Unit := do
    e.compile
    expect .semicolon
    emit .ret
  let rest : Compile w.settings Unit :=
    if D.current.kind = .initializer then
      report .returnValueFromInitializer >>= fun _ => value else value
  simp only [compile, Allowed, fragment, Drafts.emit_append]
  refine .token (Meets.frame_bind (l := if D.current.kind = .script then
    report .returnFromScript >>= fun _ => rest else rest) (fun f hf => by rw [hf.kind]) ?_)
  exact Meets.guard not_cleanly_report fun _ => Meets.guard not_cleanly_report fun _ =>
    (he.meets hfresh).last fun _ => .token (.emit .ret)

theorem compiles_block {ds : List Declaration} (hds : Declaration.CompilesEach w ds ts) :
    Compiles w (.block ds) (.openBrace :: ts ++ [.closeBrace]) := by
  intro D hfresh hspared
  simp only [ImplicitNames.spared_append, ImplicitNames.spared_cons, List.cons_append] at hspared
  obtain ⟨_, hspared, _⟩ := hspared
  obtain ⟨scope, hscopes⟩ := Declaration.scopes_afterEach D.env.enter rfl ds
  simp only [compile, Allowed, fragment]
  refine Meets.of_valid (fun _ => Drafts.fits_of_emit) fun hv => ?_
  exact .token (Meets.beginScope.silent
    ((hds (D := D.moveTo D.env.enter) hfresh hspared).last fun _ =>
      .token (.leaveScope _ hv hscopes hfresh)))

end Statement

end LoxCompiler
