import LoxCompiler.Proofs.Simulation.Capture
import LoxCompiler.Proofs.Syntax.Compile

/-! # Compiling expressions

An expression is accepted exactly if the static rules allow it, and it compiles to its fragment.
-/

namespace LoxCompiler

open Compile

set_option synthInstance.maxSize 4096

variable {β : Type} {w : Width β}

/-- A local that cannot be read has no name of the language. -/
def Drafts.Plain (D : Drafts) : Prop :=
  D.current.fresh ≠ some D.names.this ∧ D.current.fresh ≠ some D.names.super

namespace Compile.Meets

variable {D : Drafts}

theorem addName (name : Symbol) : Meets D [] (addName name : Compile w.settings Nat)
    D.constantCount True (D.emit (.item (.string name))) :=
  addConstant rfl trivial

theorem emitConstant {value : Constant β} {item : Item}
    (hvalue : value.eraseLines = item.assemble w (D.level + 1)) (hitem : item.Fits w.limits) :
    Meets D [] (emitConstant value : Compile w.settings Unit) () True
      (D.emit (.withItem item fun index => .step (.constant .constant index))) := by
  rw [Drafts.emit_withItem]
  exact (addConstant hvalue hitem).silent (emitWith_constant .constant D.constantCount)

theorem pushLiteral (value : Literal Symbol) :
    Meets D [] (pushLiteral value : Compile w.settings Unit) () True (D.emit value.fragment) := by
  cases value with
  | nil => exact Meets.emit .pushNil
  | boolean value =>
      cases value with
      | true => exact Meets.emit .pushTrue
      | false => exact Meets.emit .pushFalse
  | number value => exact emitConstant rfl trivial
  | string value => exact emitConstant rfl trivial

/-- An argument is one too many if as many as may be are there before it. -/
theorem checkArgument (count : Nat) : Meets D [] (checkArgument count : Compile w.settings Unit) ()
    (w.limits.arguments ≠ some count) D := by
  exact check

end Compile.Meets

theorem superProblem?_eq_none_iff (env : Environment) :
    superProblem? env.classes = none ↔ env.InSubclass := by
  unfold Environment.InSubclass
  cases env.classes with
  | nil => simp [superProblem?]
  | cons context outer =>
      obtain ⟨hasSuperclass⟩ := context
      cases hasSuperclass <;> simp [superProblem?]

namespace Compile.Meets

variable {D : Drafts}

theorem receiver (hplain : D.Plain) : Meets D [] (receiver : Compile w.settings Unit) ()
    (D.env.classes ≠ []) (D.emit (D.env.load D.env.names.this)) := by
  unfold Compile.receiver
  refine read_bind (l := if D.classes = [] then report .thisOutsideClass
    else Compile.loadVariable D.names.this) ?_ ?_
  · intro s hs
    rw [hs.classes, hs.names]
    simp
  · by_cases hclasses : D.classes = []
    · rw [if_pos hclasses]
      exact of_never (fun h => h hclasses) fun _ _ _ _ => not_cleanly_report
    · rw [if_neg hclasses]
      exact (loadVariable D.names.this).congr fun _ => ⟨fun _ => hclasses, fun _ => hplain.1⟩

/-- The report of a problem, if there is one. -/
theorem forM_report (problem : Option Diagnostic.Problem) :
    Meets D [] (problem.forM report : Compile w.settings Unit) () (problem = none) D := by
  cases problem with
  | none => exact Meets.pure.congr fun _ => by simp
  | some problem => exact of_never (by simp) fun _ _ _ _ => not_cleanly_report

theorem superMethod (method : Symbol) (hplain : D.Plain) :
    Meets D [.keyword .superWord, .dot, .identifier method]
      (superMethod method : Compile w.settings (Nat × Symbol)) (D.constantCount, D.names.super)
      D.env.InSubclass
      ((D.emit (.item (.string method))).emit (D.env.load D.env.names.this)) := by
  have hload : Meets (D.emit (.item (.string method))) []
      (do
        Compile.loadVariable D.names.this
        return (D.constantCount, D.names.super) : Compile w.settings _)
      (D.constantCount, D.names.super) True
      ((D.emit (.item (.string method))).emit (D.env.load D.env.names.this)) :=
    ((loadVariable (D := D.emit _) D.names.this).finish fun _ =>
      Meets.pure (v := (D.constantCount, D.names.super))).congr
        fun _ => ⟨fun _ => trivial, fun _ => hplain.1⟩
  have hread : Meets (D.emit (.item (.string method))) []
      (do
        let names := (← read).names
        Compile.loadVariable names.this
        return (D.constantCount, names.super) : Compile w.settings _)
      (D.constantCount, D.names.super) True
      ((D.emit (.item (.string method))).emit (D.env.load D.env.names.this)) :=
    read_bind (fun s hs => by rw [hs.names]; rfl) hload
  unfold Compile.superMethod
  refine .token (read_bind (l := do
    (superProblem? D.classes).forM report
    expect .dot
    expect (.identifier method)
    let index ← Compile.addName method
    let names := (← read).names
    Compile.loadVariable names.this
    return (index, names.super)) (fun s hs => by rw [hs.classes]) ?_)
  refine ((forM_report _).bind fun _ => .token (.token ((addName method).silent hread))).congr
    fun _ => ?_
  rw [← superProblem?_eq_none_iff, and_true]
  exact Iff.rfl

end Compile.Meets

/-- An expression that some tokens spell compiles to its fragment, exactly if it is allowed. -/
def Expression.Compiles (w : Width β) (e : Expression) (ts : List Kind) : Prop :=
  ∀ {D : Drafts}, D.Plain → Meets D ts (e.compile : Compile w.settings Unit) ()
    (e.Allowed D.env D.current.fresh) (D.emit (e.fragment D.env))

/-- Arguments that some tokens spell compile to their fragments, exactly if they are allowed and
not too many, with some number of arguments before them. -/
def Expression.CompilesEach (w : Width β) (es : List Expression) (ts : List Kind) : Prop :=
  ∀ {D : Drafts} (count : Nat), D.Plain →
    Meets D ts (Expression.compileEach es count : Compile w.settings Unit) ()
      (Expression.AllowedEach D.env D.current.fresh es ∧
        ∀ i < es.length, w.limits.arguments ≠ some (count + i))
      (D.emit (Expression.fragmentEach D.env es))

namespace Expression

variable {level : Precedence} {e l r o f : Expression} {es : List Expression} {ts us : List Kind}

theorem compiles_literal (value : Literal Symbol) : Compiles w (.literal value) [.literal value] := by
  intro D _
  simp only [compile, Allowed, fragment]
  exact .token (.pushLiteral value)

theorem compiles_variable (name : Symbol) : Compiles w (.variable name) [.identifier name] := by
  intro D _
  simp only [compile, Allowed, fragment]
  exact .token (.loadVariable name)

theorem compiles_receiver : Compiles w .receiver [.keyword .thisWord] := by
  intro D hplain
  simp only [compile, Allowed, fragment]
  exact .token (.receiver hplain)

theorem compiles_group (he : e.Compiles w ts) :
    Compiles w (.group e) (.openParen :: ts ++ [.closeParen]) := by
  intro D hplain
  simp only [compile, Allowed, fragment]
  exact .token ((he hplain).last fun _ => .expect _)

theorem compiles_unary (op : Operator) (he : e.Compiles w ts) :
    Compiles w (.unary op e) (.operator op :: ts) := by
  intro D hplain
  simp only [compile, Allowed, fragment, Drafts.emit_append]
  exact .token ((he hplain).finish fun _ => .emit_forM _)

theorem compiles_binary (op : Operator) (hl : l.Compiles w ts) (hr : r.Compiles w us) :
    Compiles w (.binary op l r) (ts ++ .operator op :: us) := by
  intro D hplain
  simp only [compile, Allowed, fragment, Drafts.emit_append]
  exact (hl hplain).bind fun _ => .token
    ((hr (D := D.emit _) hplain).finish fun _ => .emit_forM _)

theorem compiles_assign (name : Symbol) (he : e.Compiles w ts) :
    Compiles w (.assign name e) (.identifier name :: .operator .assign :: ts) := by
  intro D hplain
  have hreach : D.emit (fragment D.env (.assign name e)) =
      ((D.emit (D.env.locate name)).emit (e.fragment D.env)).emit
        (.step (D.env.place name D.constantCount).set) := by
    rw [← Drafts.emit_append, fragment]
    exact D.emit_append _ _
  simp only [compile, Allowed]
  rw [hreach]
  exact .token ((Meets.access name).bind fun _ => .token
    ((he (D := D.emit _) hplain).finish fun _ => .emitWith_set name))

theorem compiles_and (hl : l.Compiles w ts) (hr : r.Compiles w us) :
    Compiles w (.and l r) (ts ++ .operator .and :: us) := by
  intro D hplain
  simp only [compile, Allowed, fragment, Drafts.emit_append]
  refine (hl hplain).bind fun _ => .token ?_
  refine (Meets.emitJump _).silent ((Meets.emit _).silent ?_)
  refine (hr (D := ((D.emit _).emit _).emit _) hplain).finish fun _ => ?_
  rw [← Drafts.emit_append]
  exact Meets.patchJump _ _

theorem compiles_or (hl : l.Compiles w ts) (hr : r.Compiles w us) :
    Compiles w (.or l r) (ts ++ .operator .or :: us) := by
  intro D hplain
  simp only [compile, Allowed, fragment, Drafts.emit_append]
  refine (hl hplain).bind fun _ => .token ?_
  refine (Meets.emitJump _).silent ((Meets.emitJump _).silent ?_)
  refine (Meets.patchJump _ (.step (.pending .jump))).silent ?_
  have hskip : Fragment.jumpOver .jumpIfFalse 0 (.step (.pending .jump)) =
      .step (.jump .jumpIfFalse 3) ++ .step (.pending .jump) := rfl
  rw [hskip, Drafts.emit_append]
  refine (Meets.emit _).silent ?_
  refine (hr (D := (((D.emit _).emit _).emit _).emit _) hplain).finish fun _ => ?_
  rw [← Drafts.emit_append]
  have hsize : ((D.emit (l.fragment D.env)).emit (.step (.pending .jumpIfFalse))).size =
      ((D.emit (l.fragment D.env)).emit (.step (.jump .jumpIfFalse 3))).size := by
    simp [Step.size]
  rw [hsize]
  exact Meets.patchJump _ _

theorem compiles_get (property : Symbol) (ho : o.Compiles w ts) :
    Compiles w (.get o property) (ts ++ [.dot, .identifier property]) := by
  intro D hplain
  simp only [compile, Allowed, fragment, Drafts.emit_append, Drafts.emit_withItem]
  exact (ho hplain).last fun _ => .token (.token ((Meets.addName _).silent
    (.emitWith_constant _ _)))

theorem compiles_set (property : Symbol) (ho : o.Compiles w ts) (he : e.Compiles w us) :
    Compiles w (.set o property e)
      (ts ++ .dot :: .identifier property :: .operator .assign :: us) := by
  intro D hplain
  simp only [compile, Allowed, fragment, Drafts.emit_append, Drafts.emit_withItem]
  exact (ho hplain).bind fun _ => .token (.token ((Meets.addName _).silent (.token
    ((he (D := (D.emit _).emit _) hplain).finish fun _ => .emitWith_constant _ _))))

theorem compiles_superGet (method : Symbol) :
    Compiles w (.superGet method) [.keyword .superWord, .dot, .identifier method] := by
  intro D hplain
  simp only [compile, Allowed, fragment, Drafts.emit_append, Drafts.emit_withItem]
  refine (Meets.superMethod method hplain).finish fun _ => ?_
  exact ((Meets.loadVariable (D := (D.emit _).emit _) _).finish fun _ => .emitWith_constant _ _).congr
    fun _ => ⟨fun _ => trivial, fun _ => hplain.2⟩

/-! ## Arguments -/

theorem compilesEach_nil : CompilesEach w [] [] := by
  intro D count _
  simp only [compileEach, AllowedEach, fragmentEach, Drafts.emit_empty]
  exact Meets.pure.congr fun _ => by simp

theorem compilesEach_last (he : e.Compiles w ts) : CompilesEach w [e] ts := by
  intro D count hplain
  simp only [compileEach, AllowedEach, fragmentEach, Drafts.emit_append, Drafts.emit_empty]
  have h : Meets D (ts ++ []) (compileEach [e] count : Compile w.settings Unit) ()
      (e.Allowed D.env D.current.fresh ∧ w.limits.arguments ≠ some count)
      (D.emit (e.fragment D.env)) := by
    simp only [compileEach]
    exact (he hplain).bind fun _ => Meets.checkArgument count
  rw [List.append_nil] at h
  simp only [compileEach] at h
  exact h.congr fun _ => by simp

theorem compilesEach_more {next : Expression} (he : e.Compiles w ts)
    (hes : CompilesEach w (next :: es) us) :
    CompilesEach w (e :: next :: es) (ts ++ .comma :: us) := by
  intro D count hplain
  rw [compileEach, AllowedEach, fragmentEach, Drafts.emit_append]
  refine Meets.congr ((he hplain).bind fun _ => (Meets.checkArgument count).bind fun _ =>
    .token (hes (D := D.emit _) (count + 1) hplain)) fun _ => ?_
  have hcounts : (∀ i < (e :: next :: es).length, w.limits.arguments ≠ some (count + i)) ↔
      w.limits.arguments ≠ some count ∧
        ∀ i < (next :: es).length, w.limits.arguments ≠ some (count + 1 + i) := by
    rw [List.length_cons, Nat.forall_lt_succ_left]
    simp only [Nat.add_zero, Nat.add_assoc, Nat.add_comm 1]
  rw [hcounts]
  tauto

/-- No argument is one too many exactly if their number is within the limit. -/
theorem arguments_fit {limit : Option Nat} {n : Nat} :
    (∀ i < n, limit ≠ some (0 + i)) ↔ Limits.admits limit n = true := by
  cases limit with
  | none => simp [Limits.admits]
  | some limit =>
      simp only [Limits.admits, decide_eq_true_eq, ne_eq, Option.some.injEq, Nat.zero_add]
      constructor
      · intro h
        by_contra hn
        exact h limit (by omega) rfl
      · intro h i hi heq
        omega

section Call

variable (hes : CompilesEach w es us)
include hes

theorem compiles_call (hf : f.Compiles w ts) :
    Compiles w (.call f es) (ts ++ .openParen :: us ++ [.closeParen]) := by
  intro D hplain
  simp only [compile, Allowed, fragment, Drafts.emit_append, List.append_assoc, List.cons_append]
  refine ((hf hplain).bind fun _ => .token ((hes (D := D.emit _) 0 hplain).last fun h =>
    .token ?_)).congr fun hfits => ?_
  · have hadmits := arguments_fit.mp h.2
    rw [Limits.clamp_of_admits hadmits]
    exact .emitWith_byte .call es.length hadmits
  · have hadmits : Limits.admits w.limits.arguments es.length = true :=
      Drafts.fits_of_mem hfits (List.mem_append_right _ (List.mem_singleton_self _))
    rw [arguments_fit]
    tauto

theorem compiles_invoke (method : Symbol) (ho : o.Compiles w ts) :
    Compiles w (.invoke o method es)
      (ts ++ .dot :: .identifier method :: .openParen :: us ++ [.closeParen]) := by
  intro D hplain
  simp only [compile, Allowed, fragment, Drafts.emit_append, Drafts.emit_withItem,
    List.append_assoc, List.cons_append]
  refine ((ho hplain).bind fun _ => .token (.token ((Meets.addName _).silent (.token
    ((hes (D := (D.emit _).emit _) 0 hplain).last fun h => .token ?_))))).congr fun hfits => ?_
  · have hadmits := arguments_fit.mp h.2
    rw [Limits.clamp_of_admits hadmits]
    exact .emitWith_invoke .invoke _ es.length hadmits
  · have hadmits : Limits.admits w.limits.arguments es.length = true :=
      Drafts.fits_of_mem hfits (List.mem_append_right _ (List.mem_singleton_self _))
    rw [arguments_fit]
    tauto

theorem compiles_superCall (method : Symbol) : Compiles w (.superCall method es)
    (.keyword .superWord :: .dot :: .identifier method :: .openParen :: us ++ [.closeParen]) := by
  intro D hplain
  simp only [compile, Allowed, fragment, Drafts.emit_append, Drafts.emit_withItem,
    List.cons_append]
  have hload : ∀ E : Drafts, E.Plain → Meets E [] (Compile.loadVariable E.names.super :
      Compile w.settings Unit) () True (E.emit (E.env.load E.names.super)) := fun E hE =>
    (Meets.loadVariable E.names.super).congr fun _ => ⟨fun _ => trivial, fun _ => hE.2⟩
  refine ((Meets.superMethod method hplain).bind fun _ => .token
    ((hes (D := (D.emit _).emit _) 0 hplain).last fun h => .token
      ((hload (((D.emit _).emit _).emit _) hplain).silent ?_))).congr fun hfits => ?_
  · have hadmits := arguments_fit.mp h.2
    rw [Limits.clamp_of_admits hadmits]
    exact .emitWith_invoke .superInvoke _ es.length hadmits
  · have hadmits : Limits.admits w.limits.arguments es.length = true :=
      Drafts.fits_of_mem hfits (List.mem_append_right _ (List.mem_singleton_self _))
    rw [arguments_fit]
    tauto

end Call

mutual

/-- Every expression compiles to its fragment, exactly if it is allowed. -/
theorem compiles : ∀ {level : Precedence} {e : Expression} {ts : List Kind},
    Spelled level e ts → Compiles w e ts
  | _, _, _, .weaken h => compiles h
  | _, _, _, .assign h => compiles_assign _ (compiles h)
  | _, _, _, .set ho he => compiles_set _ (compiles ho) (compiles he)
  | _, _, _, .or hl hr => compiles_or (compiles hl) (compiles hr)
  | _, _, _, .and hl hr => compiles_and (compiles hl) (compiles hr)
  | _, _, _, .binary _ hl hr => compiles_binary _ (compiles hl) (compiles hr)
  | _, _, _, .unary _ h => compiles_unary _ (compiles h)
  | _, _, _, .call _ hf hes => compiles_call (compilesEach hes) (compiles hf)
  | _, _, _, .get ho => compiles_get _ (compiles ho)
  | _, _, _, .invoke ho hes => compiles_invoke (compilesEach hes) _ (compiles ho)
  | _, _, _, .superCall hes => compiles_superCall (compilesEach hes) _
  | _, _, _, .superGet => compiles_superGet _
  | _, _, _, .receiver => compiles_receiver
  | _, _, _, .variable => compiles_variable _
  | _, _, _, .literal => compiles_literal _
  | _, _, _, .group h => compiles_group (compiles h)

/-- All arguments compile to their fragments, exactly if they are allowed and not too many. -/
theorem compilesEach : ∀ {es : List Expression} {ts : List Kind},
    SpelledEach es ts → CompilesEach w es ts
  | _, _, .none => compilesEach_nil
  | _, _, .last h => compilesEach_last (compiles h)
  | _, _, .more h hs => compilesEach_more (compiles h) (compilesEach hs)

end

end Expression

end LoxCompiler
