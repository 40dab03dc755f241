import LoxCompiler.Proofs.Lines.Steps
import LoxCompiler.Proofs.Simulation.Script
import LoxCompiler.Proofs.Syntax.Rename

/-! # Trees side by side

A tree with some names and the same tree with other names are compiled side by side, if the same of
its methods are initializers.
-/

set_option synthInstance.maxSize 65536

namespace LoxCompiler

open Compile

variable {β : Type} {w : Width β} {c : Course β} (σ σ' : Symbol → Symbol)

namespace Compile

/-! ## Expressions -/

instance (value : Literal Symbol) : Abreast c Any
    (pushLiteral (value.rename σ) : Compile w.settings Unit) (pushLiteral (value.rename σ')) := by
  cases value with
  | number value => exact abreast_emitConstant rfl rfl
  | string value => exact abreast_emitConstant rfl rfl
  | boolean value => cases value <;> exact inferInstanceAs (Abreast c Any (emit _) (emit _))
  | nil => exact inferInstanceAs (Abreast c Any (emit _) (emit _))

instance (count count' : Nat) :
    Abreast c Any (checkArgument count : Compile w.settings Unit) (checkArgument count') := by
  unfold checkArgument
  infer_instance

instance (x x' : Symbol) :
    Begins c (superMethod x : Compile w.settings (Nat × Symbol)) (superMethod x') := by
  unfold superMethod
  infer_instance

instance : Abreast c Any (receiver : Compile w.settings Unit) receiver := by
  unfold receiver
  infer_instance

end Compile

mutual

theorem Expression.begins_compile : ∀ e : Expression,
    Begins c ((e.rename σ).compile : Compile w.settings Unit) (e.rename σ').compile
  | .literal _ | .variable _ | .receiver | .superGet _ => by
      simp only [Expression.rename, Expression.compile]
      infer_instance
  | .assign _ value => by
      have := value.begins_compile
      simp only [Expression.rename, Expression.compile]
      infer_instance
  | .group inner => by
      have := inner.begins_compile
      simp only [Expression.rename, Expression.compile]
      infer_instance
  | .unary _ operand => by
      have := operand.begins_compile
      simp only [Expression.rename, Expression.compile]
      infer_instance
  | .superCall _ arguments => by
      have := Expression.abreast_compileEach arguments 0
      simp only [Expression.rename, Expression.compile]
      infer_instance
  | .binary _ left right | .and left right | .or left right => by
      have := left.begins_compile
      have := right.begins_compile
      simp only [Expression.rename, Expression.compile]
      infer_instance
  | .call object arguments | .invoke object _ arguments => by
      have := object.begins_compile
      have := Expression.abreast_compileEach arguments 0
      simp only [Expression.rename, Expression.compile]
      infer_instance
  | .get object _ => by
      have := object.begins_compile
      simp only [Expression.rename, Expression.compile]
      infer_instance
  | .set object _ value => by
      have := object.begins_compile
      have := value.begins_compile
      simp only [Expression.rename, Expression.compile]
      infer_instance

theorem Expression.abreast_compileEach : ∀ (es : List Expression) (count : Nat), Abreast c Any
    (Expression.compileEach (Expression.renameEach σ es) count : Compile w.settings Unit)
    (Expression.compileEach (Expression.renameEach σ' es) count)
  | [], _ => by
      simp only [Expression.renameEach, Expression.compileEach]
      infer_instance
  | [argument], _ => by
      have := argument.begins_compile
      simp only [Expression.renameEach, Expression.compileEach]
      infer_instance
  | argument :: next :: arguments, count => by
      have := argument.begins_compile
      have := Expression.abreast_compileEach (next :: arguments) (count + 1)
      simp only [Expression.renameEach, Expression.compileEach] at this ⊢
      infer_instance
end

attribute [instance] Expression.begins_compile Expression.abreast_compileEach

namespace Compile

/-! ## Variables and clauses -/

instance (x x' : Symbol) :
    Abreast c Any (declareNamed x : Compile w.settings Nat) (declareNamed x') := by
  have hindex : Abreast c Any
      (do if 0 < (← frame).scopeDepth then return 0 else addName x : Compile w.settings Nat)
      (do if 0 < (← frame).scopeDepth then return 0 else addName x') :=
    inferInstance
  unfold declareNamed
  infer_instance

instance (value : Option Expression) : Abreast c Any
    (compileInitial (value.map (Expression.rename σ)) : Compile w.settings Unit)
    (compileInitial (value.map (Expression.rename σ'))) := by
  cases value with
  | none => exact inferInstanceAs (Abreast c Any (emit _) (emit _))
  | some value =>
      unfold compileInitial
      simp only [Option.map_some]
      infer_instance

instance (x x' : Symbol) (value : Option Expression) : Abreast c Any
    (compileVariable x (value.map (Expression.rename σ)) : Compile w.settings Unit)
    (compileVariable x' (value.map (Expression.rename σ'))) := by
  unfold compileVariable
  infer_instance

/-- Both loops have a jump out of them, or none has. -/
def SameExit (exit exit' : Option Nat) : Prop := exit.isSome = exit'.isSome

theorem abreast_compileCondition (condition : Option Expression) : Abreast c SameExit
    (compileCondition (condition.map (Expression.rename σ)) : Compile w.settings (Option Nat))
    (compileCondition (condition.map (Expression.rename σ'))) := by
  have hsome (exit exit' : Nat) : Abreast c SameExit
      (pure (some exit) : Compile w.settings (Option Nat)) (pure (some exit')) := .pure rfl
  have hnone : Abreast c SameExit (pure none : Compile w.settings (Option Nat)) (pure none) :=
    .pure rfl
  cases condition with
  | none =>
      unfold compileCondition
      simp only [Option.map_none]
      infer_instance
  | some condition =>
      unfold compileCondition
      simp only [Option.map_some]
      infer_instance

theorem abreast_leaveLoop {exit exit' : Option Nat} (h : SameExit exit exit') :
    Abreast c Any (leaveLoop exit : Compile w.settings Unit) (leaveLoop exit') := by
  unfold leaveLoop
  match exit, exit' with
  | none, none => exact .pure trivial
  | some _, some _ => infer_instance
  | none, some _ | some _, none => cases h

instance (start start' : Nat) (increment : Option Expression) : Abreast c Any
    (compileIncrement start (increment.map (Expression.rename σ)) : Compile w.settings Nat)
    (compileIncrement start' (increment.map (Expression.rename σ'))) := by
  cases increment with
  | none =>
      unfold compileIncrement
      simp only [Option.map_none]
      infer_instance
  | some increment =>
      unfold compileIncrement
      simp only [Option.map_some]
      infer_instance

instance (x x' : Symbol) (count count' : Nat) : Abreast c Any
    (compileParameters.compileParameter x count : Compile w.settings Unit)
    (compileParameters.compileParameter x' count') := by
  unfold compileParameters.compileParameter
  infer_instance

instance (names : List Symbol) (count : Nat) : Abreast c Any
    (compileParameters (names.map σ) count : Compile w.settings Unit)
    (compileParameters (names.map σ') count) := by
  fun_induction FunctionTree.parameterTokens names generalizing count with
  | case1 => exact inferInstanceAs (Abreast c Any (pure () : Compile w.settings Unit) (pure ()))
  | case2 x => exact inferInstanceAs (Abreast c Any (compileParameters.compileParameter (σ x) count)
      (compileParameters.compileParameter (σ' x) count))
  | case3 x y rest ih =>
      simp only [List.map_cons, compileParameters] at ih ⊢
      infer_instance

instance (x x' : Symbol) (superclass : Option Symbol) : Abreast c Any
    (compileSuperclass x (superclass.map σ) : Compile w.settings Unit)
    (compileSuperclass x' (superclass.map σ')) := by
  cases superclass with
  | none => exact inferInstanceAs (Abreast c Any (pure () : Compile w.settings Unit) (pure ()))
  | some superclass =>
      unfold compileSuperclass
      simp only [Option.map_some]
      infer_instance

instance (x x' : Symbol) (methods methods' : Compile w.settings Unit) [Orderly methods]
    [Orderly methods'] [Abreast c Any methods methods'] :
    Abreast c Any (compileClassBody x methods) (compileClassBody x' methods') := by
  have hend : Abreast c Any (do if (← endClass).hasSuperclass then endScope : Compile w.settings Unit)
      (do if (← endClass).hasSuperclass then endScope) :=
    abreast_endClass.bind fun h => by
      subst h
      infer_instance
  unfold compileClassBody
  infer_instance

end Compile

instance (first : Initializer) : Abreast c Any
    ((first.rename σ).compile : Compile w.settings Unit) (first.rename σ').compile := by
  cases first with
  | absent => exact inferInstanceAs (Abreast c Any (expect .semicolon) (expect .semicolon))
  | «variable» x value => exact inferInstanceAs (Abreast c Any
      (expect (.keyword .varWord) >>= fun _ => compileVariable (σ x) (value.map (Expression.rename σ)))
      (expect (.keyword .varWord) >>= fun _ => compileVariable (σ' x) (value.map (Expression.rename σ'))))
  | expression value =>
      unfold Initializer.rename Initializer.compile
      infer_instance

/-! ## Statements and declarations -/

mutual

/-- The names of the methods in a statement. -/
def Statement.methodNames : Statement → List Symbol
  | .expression _ | .print _ | .ret _ => []
  | .ifThen _ body | .whileLoop _ body | .forLoop _ _ _ body => body.methodNames
  | .ifElse _ body otherwise => body.methodNames ++ otherwise.methodNames
  | .block inner => Declaration.methodNamesEach inner

/-- The names of the methods in a declaration. -/
def Declaration.methodNames : Declaration → List Symbol
  | .classDeclaration _ _ methods => FunctionTree.methodNamesEach methods
  | .funDeclaration f => f.methodNames
  | .varDeclaration _ _ => []
  | .statement s => s.methodNames

/-- The names of the methods in some declarations. -/
def Declaration.methodNamesEach : List Declaration → List Symbol
  | [] => []
  | d :: ds => d.methodNames ++ Declaration.methodNamesEach ds

/-- The names of the methods inside a function. -/
def FunctionTree.methodNames : FunctionTree → List Symbol
  | .mk _ _ body => Declaration.methodNamesEach body

/-- The names of some methods, and of those inside them. -/
def FunctionTree.methodNamesEach : List FunctionTree → List Symbol
  | [] => []
  | f :: fs => f.name :: f.methodNames ++ FunctionTree.methodNamesEach fs

end

/-- With both ways to rename, the same of some methods are initializers. -/
def SameKinds (names : ImplicitNames) (methods : List Symbol) : Prop :=
  ∀ x ∈ methods, σ x = names.init ↔ σ' x = names.init

theorem sameKinds_append {names : ImplicitNames} {methods more : List Symbol} :
    SameKinds σ σ' names (methods ++ more) ↔
      SameKinds σ σ' names methods ∧ SameKinds σ σ' names more :=
  List.forall_mem_append

mutual

theorem Statement.begins_compile : ∀ s : Statement, SameKinds σ σ' c.names s.methodNames →
    Begins c ((s.rename σ).compile : Compile w.settings Unit) (s.rename σ').compile
  | .expression _, _ | .print _, _ => by
      simp only [Statement.rename, Statement.compile]
      infer_instance
  | .ret value, _ => by
      cases value with
      | none =>
          simp only [Statement.rename, Option.map_none, Statement.compile]
          infer_instance
      | some value =>
          simp only [Statement.rename, Option.map_some, Statement.compile]
          infer_instance
  | .ifThen _ body, h | .whileLoop _ body, h => by
      rw [Statement.methodNames] at h
      have := body.begins_compile h
      simp only [Statement.rename, Statement.compile]
      infer_instance
  | .forLoop first condition increment body, h => by
      rw [Statement.methodNames] at h
      have := body.begins_compile h
      have hrest (start start' : Nat) : Abreast c Any (do
          let exit ← compileCondition (condition.map (Expression.rename σ))
          let next ← compileIncrement start (increment.map (Expression.rename σ))
          (body.rename σ).compile
          emitLoop next
          leaveLoop exit
          endScope : Compile w.settings Unit) (do
          let exit ← compileCondition (condition.map (Expression.rename σ'))
          let next ← compileIncrement start' (increment.map (Expression.rename σ'))
          (body.rename σ').compile
          emitLoop next
          leaveLoop exit
          endScope) :=
        (abreast_compileCondition σ σ' condition).bind fun hexit => by
          have := abreast_leaveLoop (c := c) (w := w) hexit
          infer_instance
      simp only [Statement.rename, Statement.compile]
      infer_instance
  | .ifElse _ body otherwise, h => by
      rw [Statement.methodNames, sameKinds_append] at h
      have := body.begins_compile h.1
      have := otherwise.begins_compile h.2
      simp only [Statement.rename, Statement.compile]
      infer_instance
  | .block inner, h => by
      rw [Statement.methodNames] at h
      have := Declaration.abreast_compileEach inner h
      simp only [Statement.rename, Statement.compile]
      infer_instance

theorem Declaration.begins_compile : ∀ d : Declaration, SameKinds σ σ' c.names d.methodNames →
    Begins c ((d.rename σ).compile : Compile w.settings Unit) (d.rename σ').compile
  | .classDeclaration _ _ methods, h => by
      rw [Declaration.methodNames] at h
      have := FunctionTree.abreast_compileMethods methods h
      simp only [Declaration.rename, Declaration.compile]
      infer_instance
  | .funDeclaration f, h => by
      rw [Declaration.methodNames] at h
      have := FunctionTree.abreast_compile .function f h
      simp only [Declaration.rename, Declaration.compile]
      infer_instance
  | .varDeclaration _ _, _ => by
      simp only [Declaration.rename, Declaration.compile]
      infer_instance
  | .statement s, h => by
      rw [Declaration.methodNames] at h
      have := s.begins_compile h
      simp only [Declaration.rename, Declaration.compile]
      infer_instance

theorem Declaration.abreast_compileEach : ∀ ds : List Declaration,
    SameKinds σ σ' c.names (Declaration.methodNamesEach ds) → Abreast c Any
      (Declaration.compileEach (Declaration.renameEach σ ds) : Compile w.settings Unit)
      (Declaration.compileEach (Declaration.renameEach σ' ds))
  | [], _ => by
      simp only [Declaration.renameEach, Declaration.compileEach]
      infer_instance
  | d :: ds, h => by
      rw [Declaration.methodNamesEach, sameKinds_append] at h
      have := d.begins_compile h.1
      have := Declaration.abreast_compileEach ds h.2
      simp only [Declaration.renameEach, Declaration.compileEach]
      infer_instance

theorem FunctionTree.abreast_compile (kind : FunctionKind) : ∀ f : FunctionTree,
    SameKinds σ σ' c.names f.methodNames → Abreast c Any
      (FunctionTree.compile kind (f.rename σ) : Compile w.settings Unit)
      (FunctionTree.compile kind (f.rename σ'))
  | .mk _ _ body, h => by
      rw [FunctionTree.methodNames] at h
      have := Declaration.abreast_compileEach body h
      have harity (arity : Nat) : Idle (modifyFrame fun frame => { frame with arity } :
          Compile w.settings Unit) := idle_modifyFrame fun _ => ⟨rfl, rfl, rfl, rfl, rfl⟩
      simp only [FunctionTree.rename, FunctionTree.compile]
      infer_instance

theorem FunctionTree.abreast_compileMethods : ∀ fs : List FunctionTree,
    SameKinds σ σ' c.names (FunctionTree.methodNamesEach fs) → Abreast c Any
      (FunctionTree.compileMethods (FunctionTree.renameEach σ fs) : Compile w.settings Unit)
      (FunctionTree.compileMethods (FunctionTree.renameEach σ' fs))
  | [], _ => by
      simp only [FunctionTree.renameEach, FunctionTree.compileMethods]
      infer_instance
  | f :: fs, h => by
      rw [FunctionTree.methodNamesEach, sameKinds_append] at h
      obtain ⟨hname, hinner⟩ := List.forall_mem_cons.mp h.1
      have := fun kind => FunctionTree.abreast_compile kind f hinner
      have := FunctionTree.abreast_compileMethods fs h.2
      have hrest (constant constant' : Nat) : Abreast c Any (do
          let kind := if σ f.name = (← read).names.init then .initializer else .method
          FunctionTree.compile kind (f.rename σ)
          emitWith .method constant
          FunctionTree.compileMethods (FunctionTree.renameEach σ fs) : Compile w.settings Unit) (do
          let kind := if σ' f.name = (← read).names.init then .initializer else .method
          FunctionTree.compile kind (f.rename σ')
          emitWith .method constant'
          FunctionTree.compileMethods (FunctionTree.renameEach σ' fs)) :=
        .read_bind fun hs => by
          rw [hs.names, hs.names']
          simp only [hname]
          infer_instance
      simp only [FunctionTree.renameEach, FunctionTree.compileMethods, FunctionTree.name_rename]
      infer_instance

end

variable {σ σ'}

/-- Programs are compiled side by side up to the return at the end of the script. -/
theorem Declaration.begins_compileUpToReturn (hlonger : ¬ c.longer) {ds : List Declaration}
    (h : SameKinds σ σ' c.names (Declaration.methodNamesEach ds)) : Begins c
      (Declaration.compileUpToReturn (Declaration.renameEach σ ds) : Compile w.settings Unit)
      (Declaration.compileUpToReturn (Declaration.renameEach σ' ds)) := by
  have : Begins c (expect .endOfInput : Compile w.settings Unit) (expect .endOfInput) :=
    begins_expect (.inr hlonger)
  unfold Declaration.compileUpToReturn
  cases ds with
  | nil =>
      simp only [Declaration.renameEach, Declaration.compileEach, pure_bind]
      infer_instance
  | cons d ds =>
      rw [Declaration.methodNamesEach, sameKinds_append] at h
      have := d.begins_compile (c := c) (w := w) σ σ' h.1
      have := Declaration.abreast_compileEach (c := c) (w := w) σ σ' ds h.2
      simp only [Declaration.renameEach, Declaration.compileEach, bind_assoc]
      infer_instance

end LoxCompiler
