import LoxCompiler.Proofs.Blueprint.Bodies
import Mathlib.Data.List.Forall2

/-! # Occurrences to variables

Where a program reads and writes variables, in the order of its code, and with the names that are
in scope there. The code of every tree has one instruction for each of its occurrences, and no other
instructions that access variables. Which instruction it is depends on the place of the variable
alone.
-/

namespace LoxCompiler

/-- An access to a variable. -/
inductive Occurrence where
  | read (env : Environment) (name : Symbol)
  | write (env : Environment) (name : Symbol)
  /-- The result of an initializer, which is its receiver. -/
  | result

/-! ## The occurrences of trees -/

mutual

/-- The occurrences of an expression. -/
def Expression.occurrences (env : Environment) : Expression → List Occurrence
  | .literal _ => []
  | .variable name => [.read env name]
  | .assign name value => value.occurrences env ++ [.write env name]
  | .receiver => [.read env env.names.this]
  | .superGet _ => [.read env env.names.this, .read env env.names.super]
  | .superCall _ arguments =>
      .read env env.names.this :: Expression.occurrencesEach env arguments ++
        [.read env env.names.super]
  | .group inner => inner.occurrences env
  | .unary _ operand => operand.occurrences env
  | .binary _ left right | .and left right | .or left right =>
      left.occurrences env ++ right.occurrences env
  | .call callee arguments => callee.occurrences env ++ Expression.occurrencesEach env arguments
  | .get object _ => object.occurrences env
  | .set object _ value => object.occurrences env ++ value.occurrences env
  | .invoke object _ arguments => object.occurrences env ++ Expression.occurrencesEach env arguments

/-- The occurrences of some expressions, one after the other. -/
def Expression.occurrencesEach (env : Environment) : List Expression → List Occurrence
  | [] => []
  | e :: es => e.occurrences env ++ Expression.occurrencesEach env es

end

/-- The occurrences of an expression that may be absent. -/
def Expression.occurrencesOption (env : Environment) : Option Expression → List Occurrence
  | none => []
  | some e => e.occurrences env

/-- The occurrences of the first clause of a loop. -/
def Initializer.occurrences (env : Environment) : Initializer → List Occurrence
  | .absent => []
  | .variable _ value => Expression.occurrencesOption env value
  | .expression value => value.occurrences env

/-- The occurrences of a return without a value. -/
def FunctionKind.occurrences : FunctionKind → List Occurrence
  | .initializer => [.result]
  | .function | .method | .script => []

/-- The occurrences of a class after its name was declared: the superclass if there is one, and the
class itself to inherit from it, and then again to bind its methods. -/
def Environment.classOccurrences (env : Environment) (name : Symbol) : Option Symbol → List Occurrence
  | none => [.read env name]
  | some superclass =>
      let inside := env.enter.declare env.names.super
      [.read env superclass, .read inside name, .read inside name]

mutual

/-- The occurrences of a statement, without those of the functions in it. -/
def Statement.occurrences (env : Environment) : Statement → List Occurrence
  | .expression value | .print value => value.occurrences env
  | .ifThen condition body | .whileLoop condition body =>
      condition.occurrences env ++ body.occurrences env
  | .ifElse condition body otherwise =>
      condition.occurrences env ++ body.occurrences env ++ otherwise.occurrences env
  | .forLoop first condition increment body =>
      let inside := first.after env.enter
      first.occurrences env.enter ++ (Expression.occurrencesOption inside condition ++
        (Expression.occurrencesOption inside increment ++ body.occurrences inside))
  | .ret none => env.kind.occurrences
  | .ret (some value) => value.occurrences env
  | .block inner => Declaration.occurrencesEach env.enter inner

/-- The occurrences of a declaration, without those of the functions in it. -/
def Declaration.occurrences (env : Environment) : Declaration → List Occurrence
  | .classDeclaration name superclass _ => (env.declare name).classOccurrences name superclass
  | .funDeclaration _ => []
  | .varDeclaration _ value => Expression.occurrencesOption env value
  | .statement s => s.occurrences env

/-- The occurrences of some declarations, one after the other. -/
def Declaration.occurrencesEach (env : Environment) : List Declaration → List Occurrence
  | [] => []
  | d :: ds => d.occurrences env ++ Declaration.occurrencesEach (d.after env) ds

end

/-- The occurrences of a function, without those of the functions in it. -/
def FunctionBody.occurrences (b : FunctionBody) : List Occurrence :=
  Declaration.occurrencesEach b.inside b.body ++ b.env.kind.occurrences

/-! ## Instructions that access variables -/

/-- Whether an operation accesses a variable. -/
def Opcode.isAccess : Opcode → Bool
  | .getLocal | .setLocal | .getUpvalue | .setUpvalue | .getGlobal | .setGlobal => true
  | _ => false

/-- Whether a step accesses a variable. -/
def Step.isAccess : Step → Bool
  | .byte op _ | .captured op _ | .constant op _ => op.isAccess
  | .simple _ | .invoke _ _ _ | .jump _ _ | .pending _ | .closure _ _ => false

/-- The constant of a global variable is its name. -/
def Place.Named (constants : List Item) (name : Symbol) : Place → Prop
  | .global index => constants[index]? = some (.string name)
  | .slot _ | .captured _ => True

/-- A step makes an access. -/
def Occurrence.Made (constants : List Item) : Occurrence → Step → Prop
  | .read env name, s => ∃ n, s = (env.place name n).get ∧ (env.place name n).Named constants name
  | .write env name, s => ∃ n, s = (env.place name n).set ∧ (env.place name n).Named constants name
  | .result, s => s = .byte .getLocal 0

theorem Place.Named.extend {constants : List Item} {name : Symbol} {place : Place}
    (h : place.Named constants name) (more : List Item) : place.Named (constants ++ more) name := by
  cases place with
  | global index =>
      show (constants ++ more)[index]? = _
      rw [List.getElem?_append_left (List.getElem?_eq_some_iff.mp h).1]
      exact h
  | slot n | captured v => trivial

theorem Occurrence.Made.extend {constants : List Item} {a : Occurrence} {s : Step}
    (h : a.Made constants s) (more : List Item) : a.Made (constants ++ more) s := by
  cases a with
  | read env name | write env name =>
      obtain ⟨n, hs, hnamed⟩ := h
      exact ⟨n, hs, hnamed.extend more⟩
  | result => exact h

/-! ## The occurrences of fragments -/

namespace Fragment

theorem empty_append (f : Fragment) : ∅ ++ f = f := funext fun _ => Piece.empty_append _

/-- The instructions of a fragment that access variables make some occurrences, one each. -/
def Occurrences (f : Fragment) (os : List Occurrence) : Prop :=
  ∀ before : List Item, List.Forall₂ (Occurrence.Made (before ++ (f before.length).constants)) os
    ((f before.length).code.filter Step.isAccess)

namespace Occurrences

variable {f g : Fragment} {os os' : List Occurrence}

theorem empty : (∅ : Fragment).Occurrences [] := fun _ => .nil

theorem append (hf : f.Occurrences os) (hg : g.Occurrences os') :
    (f ++ g).Occurrences (os ++ os') := by
  intro before
  -- the constants of the second fragment come after those of the first one
  have hg := hg (before ++ (f before.length).constants)
  rw [List.length_append] at hg
  rw [append_apply, Piece.code_append, List.filter_append, Piece.constants_append,
    ← List.append_assoc]
  exact List.rel_append ((hf before).imp fun _ _ h => h.extend _) hg

/-- Code without occurrences after a fragment. -/
theorem before (hf : f.Occurrences os) (hg : g.Occurrences []) : (f ++ g).Occurrences os := by
  have h := hf.append hg
  rwa [List.append_nil] at h

/-- Code without occurrences before a fragment. -/
theorem after (hg : g.Occurrences os) (hf : f.Occurrences []) : (f ++ g).Occurrences os :=
  hf.append hg

/-- Instructions that access no variables. -/
theorem steps {code : List Step} (h : ∀ s ∈ code, s.isAccess = false) :
    (Fragment.steps code).Occurrences [] := by
  intro before
  rw [code_steps, List.filter_eq_nil_iff.mpr fun s hs => by simp [h s hs]]
  exact .nil

theorem step {s : Step} (h : s.isAccess = false) : (Fragment.step s).Occurrences [] :=
  steps fun _ hs => List.mem_singleton.mp hs ▸ h

theorem simpleEach (ops : List Opcode) : (Fragment.steps (ops.map .simple)).Occurrences [] := by
  apply steps
  intro s hs
  obtain ⟨op, -, rfl⟩ := List.mem_map.mp hs
  rfl

theorem reserve (slots : Nat) : (Fragment.reserve slots).Occurrences [] := fun _ => .nil

theorem use (vs : List Variable) : (Fragment.use vs).Occurrences [] := fun _ => .nil

theorem item (value : Item) : (Fragment.item value).Occurrences [] := fun _ => .nil

theorem withItem {value : Item} {f : Nat → Fragment} (h : ∀ n, (f n).Occurrences os) :
    (withItem value f).Occurrences os := fun before => (after (h before.length) (item value)) before

theorem jumpOver (h : f.Occurrences os) (op : Opcode) (extra : Nat) :
    (jumpOver op extra f).Occurrences os := h

theorem sized {g : Nat → Fragment} (hf : f.Occurrences os)
    (hg : ∀ n, (g n).Occurrences os') : (sized f g).Occurrences (os ++ os') :=
  fun before => (hf.append (hg (f before.length).size)) before

theorem loop (h : f.Occurrences os) (before : Nat) : (loop before f).Occurrences os := by
  have h := h.sized fun size => step (s := .jump .loop (before + size + 3)) rfl
  rwa [List.append_nil] at h

theorem drop (h : f.Occurrences os) (level base count : Nat) :
    (drop level base count f).Occurrences os := by
  intro before
  have hdrop : (Piece.dropSteps level base (f before.length).uses count).filter Step.isAccess =
      [] := by
    rw [List.filter_eq_nil_iff]
    intro s hs
    obtain ⟨op, rfl, -⟩ := Piece.simple_of_mem_dropSteps hs
    exact Bool.false_ne_true
  show List.Forall₂ _ os (List.filter _ (_ ++ _))
  rw [List.filter_append, hdrop, List.append_nil]
  exact h before

theorem closure (level : Nat) (name : Option Symbol) (arity : Nat) (body : Fragment) :
    (closure level name arity body).Occurrences [] :=
  (use _).append (withItem fun _ => step rfl)

theorem eq_nil (h : (∅ : Fragment).Occurrences os) : os = [] :=
  List.forall₂_nil_right_iff.mp (h [])

/-- The code of a loop has the occurrences of its clauses and of its body. -/
theorem counting {condition increment : Option Fragment} {os₁ os₂ : List Occurrence}
    (hcondition : (condition.getD ∅).Occurrences os₁)
    (hincrement : (increment.getD ∅).Occurrences os₂) (h : f.Occurrences os) :
    (counting condition increment f).Occurrences (os₁ ++ (os₂ ++ os)) := by
  have hpop : (Fragment.simple .pop).Occurrences [] := step rfl
  have hrounds (size : Nat) :
      (counting.rounds increment f size).Occurrences (os₂ ++ os) := by
    cases increment with
    | none =>
        obtain rfl := eq_nil hincrement
        exact h.loop size
    | some i =>
        have hi : (i ++ Fragment.simple .pop).Occurrences os₂ := Occurrences.before hincrement hpop
        have hall := (((hi.loop (size + 3)).jumpOver .jump 0).append h).sized fun size =>
          step (s := .jump .loop size) rfl
        rwa [List.append_nil] at hall
  cases condition with
  | none =>
      obtain rfl := eq_nil hcondition
      exact hrounds 0
  | some c =>
      have hc : c.Occurrences os₁ := hcondition
      exact hc.sized fun size =>
        (((hrounds (size + 4)).after hpop).jumpOver .jumpIfFalse 0).before hpop

end Occurrences

end Fragment

/-! ## The occurrences of the code of trees -/

namespace Environment

variable (env : Environment)

theorem occurrences_locate (name : Symbol) : (env.locate name).Occurrences [] := by
  unfold locate
  cases env.place name 0 with
  | slot n => exact .empty
  | captured v => exact .use [v]
  | global index => exact .item _

/-- The name of a global variable is a constant, which comes with the access. -/
theorem named_locate (name : Symbol) (before : List Item) :
    (env.place name before.length).Named
      (before ++ (env.locate name before.length).constants) name := by
  unfold locate place
  cases slot? name env.locals with
  | some slot => trivial
  | none =>
      cases Variable.find? name env.outer with
      | some v => trivial
      | none => exact List.getElem?_concat_length

/-- An access after some other code. -/
theorem occurrences_reach {name : Symbol} {value : Fragment} {os : List Occurrence} {a : Occurrence}
    {toStep : Place → Step} (h : value.Occurrences os) (hstep : ∀ p, (toStep p).isAccess = true)
    (hmade : ∀ constants n, (env.place name n).Named constants name →
      a.Made constants (toStep (env.place name n))) :
    (env.reach name fun place => value ++ .step (toStep place)).Occurrences (os ++ [a]) := by
  intro before
  let place := env.place name before.length
  have hvalue := ((env.occurrences_locate name).append h) before
  have hnamed := (env.named_locate name before).extend
    (value (before.length + (env.locate name before.length).constants.length)).constants
  rw [List.append_assoc] at hnamed
  have hcode : ((env.reach name fun place => value ++ .step (toStep place)) before.length).code =
      ((env.locate name ++ value) before.length).code ++ [toStep place] := by
    rw [Fragment.code_append, List.append_assoc]
    rfl
  have hconstants :
      ((env.reach name fun place => value ++ .step (toStep place)) before.length).constants =
        ((env.locate name ++ value) before.length).constants := by
    show _ ++ (_ ++ []) = _
    rw [List.append_nil]
    rfl
  rw [hcode, hconstants, List.filter_append, List.filter_singleton, hstep]
  exact List.rel_append hvalue (.cons (hmade _ _ hnamed) .nil)

theorem occurrences_load (name : Symbol) : (env.load name).Occurrences [.read env name] := by
  have hload : env.load name = env.reach name fun place => ∅ ++ .step place.get :=
    congrArg (env.reach name) (funext fun _ => (Fragment.empty_append _).symm)
  rw [hload]
  exact env.occurrences_reach .empty (fun p => by cases p <;> rfl) fun _ n h => ⟨n, rfl, h⟩

theorem occurrences_reserve : env.reserve.Occurrences [] := by
  unfold reserve
  split
  · exact .empty
  · exact .reserve _

theorem occurrences_reserveEach (env : Environment) (names : List Symbol) :
    (env.reserveEach names).Occurrences [] := by
  induction names generalizing env with
  | nil => exact .empty
  | cons name names ih => exact env.occurrences_reserve.append (ih _)

theorem occurrences_header (name : Symbol) : (env.header name).Occurrences [] := by
  unfold header
  split
  · exact .item _
  · exact env.occurrences_reserve

theorem occurrences_define (index : Nat) : (env.define index).Occurrences [] := by
  unfold define
  split
  · exact .step rfl
  · exact .empty

theorem occurrences_declaration {name : Symbol} {value : Fragment} {os : List Occurrence}
    (h : value.Occurrences os) : (env.declaration name value).Occurrences os :=
  fun before => ((h.after (env.occurrences_header name)).before (env.occurrences_define _)) before

end Environment

section Expressions

open Compile (unaryCode binaryCode)

theorem Literal.fragment_occurrences (value : Literal Symbol) : value.fragment.Occurrences [] := by
  cases value with
  | nil => exact .step rfl
  | boolean value => cases value <;> exact .step rfl
  | number value | string value => exact .withItem fun _ => .step rfl

mutual

/-- The code of an expression makes the accesses of the expression. -/
theorem Expression.fragment_occurrences (env : Environment) (e : Expression) :
    (e.fragment env).Occurrences (e.occurrences env) := by
  cases e with
  | literal value => exact value.fragment_occurrences
  | «variable» name => exact env.occurrences_load name
  | assign name value =>
      exact env.occurrences_reach (Expression.fragment_occurrences env value)
        (fun p => by cases p <;> rfl) fun _ n h => ⟨n, rfl, h⟩
  | receiver => exact env.occurrences_load _
  | superGet method =>
      exact .withItem fun _ => ((env.occurrences_load _).append (env.occurrences_load _)).before
        (.step rfl)
  | superCall method arguments =>
      exact .withItem fun _ => (((env.occurrences_load _).append
        (Expression.fragment_occurrencesEach env arguments)).append (env.occurrences_load _)).before
          (.step rfl)
  | group inner => exact Expression.fragment_occurrences env inner
  | unary op operand => exact (Expression.fragment_occurrences env operand).before (.simpleEach _)
  | binary op left right =>
      exact ((Expression.fragment_occurrences env left).append
        (Expression.fragment_occurrences env right)).before (.simpleEach _)
  | and left right =>
      exact (Expression.fragment_occurrences env left).append
        (((Expression.fragment_occurrences env right).after (.step rfl)).jumpOver _ _)
  | or left right =>
      exact ((Expression.fragment_occurrences env left).before (.step rfl)).append
        (((Expression.fragment_occurrences env right).after (.step rfl)).jumpOver _ _)
  | call callee arguments =>
      exact ((Expression.fragment_occurrences env callee).append
        (Expression.fragment_occurrencesEach env arguments)).before (.step rfl)
  | get object property =>
      exact (Expression.fragment_occurrences env object).before (.withItem fun _ => .step rfl)
  | set object property value =>
      exact (Expression.fragment_occurrences env object).append
        (.withItem fun _ => (Expression.fragment_occurrences env value).before (.step rfl))
  | invoke object method arguments =>
      exact (Expression.fragment_occurrences env object).append
        (.withItem fun _ => (Expression.fragment_occurrencesEach env arguments).before (.step rfl))

theorem Expression.fragment_occurrencesEach (env : Environment) (es : List Expression) :
    (Expression.fragmentEach env es).Occurrences (Expression.occurrencesEach env es) := by
  cases es with
  | nil => exact .empty
  | cons e es =>
      exact (Expression.fragment_occurrences env e).append
        (Expression.fragment_occurrencesEach env es)

end

theorem Expression.occurrences_initial (env : Environment) (value : Option Expression) :
    (Expression.initial env value).Occurrences (Expression.occurrencesOption env value) := by
  cases value with
  | none => exact .step rfl
  | some value => exact value.fragment_occurrences env

/-- A clause that is absent has no code. -/
theorem Expression.occurrences_getD (env : Environment) (e : Option Expression) :
    ((e.map (Expression.fragment env)).getD ∅).Occurrences (Expression.occurrencesOption env e) := by
  cases e with
  | none => exact .empty
  | some e => exact e.fragment_occurrences env

theorem Initializer.fragment_occurrences (env : Environment) (first : Initializer) :
    (first.fragment env).Occurrences (first.occurrences env) := by
  cases first with
  | absent => exact .empty
  | «variable» name value =>
      exact env.occurrences_declaration (Expression.occurrences_initial env value)
  | expression value => exact (value.fragment_occurrences env).before (.step rfl)

end Expressions

theorem FunctionKind.occurrences_returnSteps (kind : FunctionKind) :
    (Fragment.steps kind.returnSteps).Occurrences kind.occurrences := by
  cases kind with
  | initializer => exact fun _ => .cons rfl .nil
  | function | method | script => exact .steps (by decide)

/-- To bind methods accesses no variables. -/
theorem FunctionTree.fragment_occurrencesEach (env : Environment) (fs : List FunctionTree) :
    (FunctionTree.fragmentEach env fs).Occurrences [] := by
  induction fs with
  | nil => exact .empty
  | cons f fs ih =>
      refine (Fragment.Occurrences.withItem fun _ => ?_).before ih
      obtain ⟨name, parameters, body⟩ := f
      exact (Fragment.Occurrences.closure _ _ _ _).append (.step rfl)

theorem Environment.occurrences_classFragment (env : Environment) (name : Symbol)
    (superclass : Option Symbol) (methods : List FunctionTree) :
    (env.classFragment name superclass
      fun inside => FunctionTree.fragmentEach inside methods).Occurrences
        (env.classOccurrences name superclass) := by
  cases superclass with
  | none =>
      exact ((env.occurrences_load name).before
        (FunctionTree.fragment_occurrencesEach _ methods)).before (.step rfl)
  | some superclass =>
      let inside := env.enter.declare env.names.super
      refine (env.occurrences_load superclass).append (.drop ?_ _ _ _)
      exact ((((((inside.occurrences_load name).after env.enter.occurrences_reserve).before
        (.step rfl)).append (inside.occurrences_load name)).before
          (FunctionTree.fragment_occurrencesEach _ methods)).before (.step rfl))

mutual

/-- The code of a statement makes the accesses of the statement. -/
theorem Statement.fragment_occurrences (env : Environment) (s : Statement) :
    (s.fragment env).Occurrences (s.occurrences env) := by
  cases s with
  | expression value | print value => exact (value.fragment_occurrences env).before (.step rfl)
  | ifThen condition body =>
      exact ((condition.fragment_occurrences env).append
        (((Statement.fragment_occurrences env body).after (.step rfl)).jumpOver _ _)).before
          ((Fragment.Occurrences.step rfl).jumpOver _ _)
  | ifElse condition body otherwise =>
      exact ((condition.fragment_occurrences env).append
        (((Statement.fragment_occurrences env body).after (.step rfl)).jumpOver _ _)).append
          (((Statement.fragment_occurrences env otherwise).after (.step rfl)).jumpOver _ _)
  | whileLoop condition body =>
      exact (((condition.fragment_occurrences env).append
        (((Statement.fragment_occurrences env body).after (.step rfl)).jumpOver _ _)).loop _).before
          (.step rfl)
  | forLoop first condition increment body =>
      exact ((first.fragment_occurrences env.enter).append
        (.counting (Expression.occurrences_getD _ condition)
          (Expression.occurrences_getD _ increment)
          (Statement.fragment_occurrences _ body))).drop _ _ _
  | ret value =>
      cases value with
      | none => exact env.kind.occurrences_returnSteps
      | some value => exact (value.fragment_occurrences env).before (.step rfl)
  | block inner => exact (Declaration.fragment_occurrencesEach env.enter inner).drop _ _ _

theorem Declaration.fragment_occurrences (env : Environment) (d : Declaration) :
    (d.fragment env).Occurrences (d.occurrences env) := by
  cases d with
  | classDeclaration name superclass methods =>
      exact .withItem fun index =>
        ((env.declare name).occurrences_classFragment name superclass methods).after
          ((env.occurrences_reserve.append (.step rfl)).append (env.occurrences_define index))
  | funDeclaration f =>
      obtain ⟨name, parameters, body⟩ := f
      exact env.occurrences_declaration (.closure _ _ _ _)
  | varDeclaration name value =>
      exact env.occurrences_declaration (Expression.occurrences_initial env value)
  | statement s => exact Statement.fragment_occurrences env s

theorem Declaration.fragment_occurrencesEach (env : Environment) (ds : List Declaration) :
    (Declaration.fragmentEach env ds).Occurrences (Declaration.occurrencesEach env ds) := by
  cases ds with
  | nil => exact .empty
  | cons d ds =>
      exact (Declaration.fragment_occurrences env d).append
        (Declaration.fragment_occurrencesEach (d.after env) ds)

end

/-- The code of a function makes the accesses of the function, and of no function in it. -/
theorem FunctionBody.made_occurrences (b : FunctionBody) :
    List.Forall₂ (Occurrence.Made b.plan.constants) b.occurrences
      (b.plan.code.filter Step.isAccess) :=
  (((Declaration.fragment_occurrencesEach b.inside b.body).after
    (b.env.occurrences_reserveEach b.parameters)).append b.env.kind.occurrences_returnSteps) []

end LoxCompiler
