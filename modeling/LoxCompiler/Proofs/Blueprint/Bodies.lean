import LoxCompiler.Proofs.Blueprint.Rules

/-! # The functions of a program

All functions of a program, each with the place where it stands. The plan of a program has the
plans of all functions nested in it, in the same order, so what is true of the plan of every
function is true of every function that a program compiles to.
-/

namespace LoxCompiler

/-- A function of a program, with the place before its parameters. The script is one, too. -/
structure FunctionBody where
  env : Environment
  name : Option Symbol
  parameters : List Symbol
  body : List Declaration

namespace FunctionBody

variable (b : FunctionBody)

/-- The place after the parameters. -/
def inside : Environment := b.env.declareEach b.parameters

/-- The code of the whole function. -/
def fragment : Fragment :=
  b.env.reserveEach b.parameters ++ Declaration.fragmentEach b.inside b.body ++
    .steps b.env.kind.returnSteps

/-- The plan of the function. -/
def plan : Plan := (b.fragment 0).plan b.env.level b.name b.parameters.length

end FunctionBody

/-- The script of a program. -/
def Declaration.scriptBody (names : ImplicitNames) (ds : List Declaration) : FunctionBody :=
  ⟨.script names, none, [], ds⟩

mutual

/-- The functions in a statement, each before those in itself. -/
def Statement.functions (env : Environment) : Statement → List FunctionBody
  | .expression _ | .print _ | .ret _ => []
  | .ifThen _ body | .whileLoop _ body => body.functions env
  | .ifElse _ body otherwise => body.functions env ++ otherwise.functions env
  | .forLoop first _ _ body => body.functions (first.after env.enter)
  | .block inner => Declaration.functionsEach env.enter inner

/-- The functions in a declaration. -/
def Declaration.functions (env : Environment) : Declaration → List FunctionBody
  | .classDeclaration name superclass methods =>
      FunctionTree.functionsEach ((env.declare name).classBody superclass) methods
  | .funDeclaration f => f.functions .function (env.declare f.name)
  | .varDeclaration _ _ => []
  | .statement s => s.functions env

/-- The functions in some declarations in a row. -/
def Declaration.functionsEach (env : Environment) : List Declaration → List FunctionBody
  | [] => []
  | d :: ds => d.functions env ++ Declaration.functionsEach (d.after env) ds

/-- A function, and the functions in it. -/
def FunctionTree.functions (kind : FunctionKind) (env : Environment) :
    FunctionTree → List FunctionBody
  | .mk name parameters body =>
      ⟨env.function kind, some name, parameters, body⟩ ::
        Declaration.functionsEach ((env.function kind).declareEach parameters) body

/-- Some methods, and the functions in them. -/
def FunctionTree.functionsEach (env : Environment) : List FunctionTree → List FunctionBody
  | [] => []
  | f :: fs =>
      f.functions (env.names.methodKind f.name) env ++ FunctionTree.functionsEach env fs

end

/-- All functions of a program, the script first. -/
def Declaration.bodies (names : ImplicitNames) (ds : List Declaration) : List FunctionBody :=
  Declaration.scriptBody names ds :: Declaration.functionsEach (.script names) ds

/-! ## The family of a plan -/

mutual

/-- A plan and all plans nested in it, each directly before those nested in itself, with their
levels. -/
def Plan.family (level : Nat) : Plan → List (Nat × Plan)
  | ⟨name, arity, captures, code, constants, slots⟩ =>
      (level, ⟨name, arity, captures, code, constants, slots⟩) ::
        Item.families (level + 1) constants

/-- The plans in some constants, with all plans nested in them. -/
def Item.families (level : Nat) : List Item → List (Nat × Plan)
  | [] => []
  | .function plan :: items => Plan.family level plan ++ Item.families level items
  | .number _ :: items | .string _ :: items => Item.families level items

end

theorem Plan.family_eq (level : Nat) (p : Plan) :
    p.family level = (level, p) :: Item.families (level + 1) p.constants := by
  cases p
  rw [Plan.family]

@[simp] theorem Item.families_append (level : Nat) (items more : List Item) :
    Item.families level (items ++ more) = Item.families level items ++ Item.families level more := by
  induction items with
  | nil => rw [List.nil_append, Item.families, List.nil_append]
  | cons item items ih =>
      cases item <;> simp only [List.cons_append, Item.families, ih, List.append_assoc]

section Assemble

variable {β : Type} (w : Width β)

mutual

/-- The functions in an assembled function are the assembled plans of its family. -/
theorem Plan.family_assemble (level : Nat) (p : Plan) : (p.assemble w level).family =
    (p.family level).map fun q => q.2.assemble w q.1 := by
  obtain ⟨name, arity, captures, code, constants, slots⟩ := p
  rw [Plan.assemble, Function.family, Plan.family, List.map_cons, Item.families_assembleEach]
  rfl

theorem Item.families_assembleEach (level : Nat) (items : List Item) :
    Constant.families (Item.assembleEach w level items) =
      (Item.families level items).map fun q => q.2.assemble w q.1 := by
  match items with
  | [] => rfl
  | .number _ :: items | .string _ :: items =>
      rw [Item.assembleEach, Item.assemble, Constant.families, Item.families,
        Item.families_assembleEach]
  | .function plan :: items =>
      rw [Item.assembleEach, Item.assemble, Constant.families, Item.families, List.map_append,
        Plan.family_assemble, Item.families_assembleEach]

end

end Assemble

mutual

/-- In a plan within the limits, all plans are within the limits. -/
theorem Plan.fits_family {limits : Limits} : ∀ {p : Plan} {level : Nat}, p.Fits limits →
    ∀ q ∈ p.family level, q.2.Fits limits
  | ⟨name, arity, captures, code, constants, slots⟩, level, h => by
      intro q hq
      rw [Plan.family] at hq
      rcases List.mem_cons.mp hq with rfl | hq
      · exact h
      · rw [Plan.Fits] at h
        exact Item.fits_families h.2.2.2.2.2 q hq

theorem Item.fits_families {limits : Limits} : ∀ {items : List Item} {level : Nat},
    Item.FitsEach limits items → ∀ q ∈ Item.families level items, q.2.Fits limits
  | [], _, _ => by simp [Item.families]
  | .number _ :: items, level, h | .string _ :: items, level, h => by
      rw [Item.families]
      exact Item.fits_families h.2
  | .function plan :: items, level, h => by
      rw [Item.families]
      intro q hq
      rcases List.mem_append.mp hq with hq | hq
      · exact Plan.fits_family h.1 q hq
      · exact Item.fits_families h.2 q hq

end

/-! ## The functions in the constants of a fragment -/

namespace Fragment

/-- No constant of a fragment is a function. -/
def NoFunctions (f : Fragment) : Prop := ∀ n level, Item.families level (f n).constants = []

theorem NoFunctions.append {f g : Fragment} (hf : f.NoFunctions) (hg : g.NoFunctions) :
    (f ++ g).NoFunctions := by
  intro n level
  rw [append_apply, Piece.constants_append, Item.families_append, hf, hg, List.append_nil]

theorem noFunctions_empty : (∅ : Fragment).NoFunctions := fun _ _ => rfl

theorem noFunctions_steps (code : List Step) : (steps code).NoFunctions := fun _ _ => rfl

theorem noFunctions_reserve (slots : Nat) : (reserve slots).NoFunctions := fun _ _ => rfl

theorem NoFunctions.withName {name : Symbol} {f : Nat → Fragment} (h : ∀ n, (f n).NoFunctions) :
    (withItem (.string name) f).NoFunctions := by
  intro n level
  show Item.families level ([Item.string name] ++ (f n (n + 1)).constants) = []
  rw [Item.families_append, h, List.append_nil]
  rfl

theorem NoFunctions.jumpOver {f : Fragment} (h : f.NoFunctions) (op : Opcode) (extra : Nat) :
    (jumpOver op extra f).NoFunctions := fun n level => h n level

end Fragment

namespace Environment

variable (env : Environment)

theorem noFunctions_reach {name : Symbol} {f : Place → Fragment} (h : ∀ p, (f p).NoFunctions) :
    (env.reach name f).NoFunctions := by
  have hlocate : (env.locate name).NoFunctions := by
    intro n level
    unfold locate
    cases env.place name 0 <;> rfl
  exact fun n level => (hlocate.append (h (env.place name n))) n level

theorem noFunctions_load (name : Symbol) : (env.load name).NoFunctions :=
  env.noFunctions_reach fun _ => Fragment.noFunctions_steps _

theorem noFunctions_reserve : env.reserve.NoFunctions := by
  unfold reserve
  split
  · exact Fragment.noFunctions_empty
  · exact Fragment.noFunctions_reserve _

theorem noFunctions_header (name : Symbol) : (env.header name).NoFunctions := by
  unfold header
  split
  · exact fun _ _ => rfl
  · exact env.noFunctions_reserve

theorem noFunctions_define (index : Nat) : (env.define index).NoFunctions := by
  unfold define
  split
  · exact Fragment.noFunctions_steps _
  · exact Fragment.noFunctions_empty

end Environment

section Expressions

open Compile (unaryCode binaryCode)

theorem Literal.noFunctions (value : Literal Symbol) : value.fragment.NoFunctions := by
  cases value with
  | nil => exact Fragment.noFunctions_steps _
  | boolean value => cases value <;> exact Fragment.noFunctions_steps _
  | number value => exact fun _ _ => rfl
  | string value => exact .withName fun _ => Fragment.noFunctions_steps _

mutual

/-- There are no functions in expressions. -/
theorem Expression.noFunctions (env : Environment) (e : Expression) :
    (e.fragment env).NoFunctions := by
  cases e with
  | literal value => exact value.noFunctions
  | «variable» name => exact env.noFunctions_load name
  | assign name value =>
      exact env.noFunctions_reach fun _ =>
        (Expression.noFunctions env value).append (Fragment.noFunctions_steps _)
  | receiver => exact env.noFunctions_load _
  | superGet method =>
      exact .withName fun _ => ((env.noFunctions_load _).append (env.noFunctions_load _)).append
        (Fragment.noFunctions_steps _)
  | superCall method arguments =>
      exact .withName fun _ => (((env.noFunctions_load _).append
        (Expression.noFunctionsEach env arguments)).append (env.noFunctions_load _)).append
          (Fragment.noFunctions_steps _)
  | group inner => exact Expression.noFunctions env inner
  | unary op operand =>
      exact (Expression.noFunctions env operand).append (Fragment.noFunctions_steps _)
  | binary op left right =>
      exact ((Expression.noFunctions env left).append (Expression.noFunctions env right)).append
        (Fragment.noFunctions_steps _)
  | and left right =>
      exact (Expression.noFunctions env left).append
        (((Fragment.noFunctions_steps _).append (Expression.noFunctions env right)).jumpOver _ _)
  | or left right =>
      exact ((Expression.noFunctions env left).append (Fragment.noFunctions_steps _)).append
        (((Fragment.noFunctions_steps _).append (Expression.noFunctions env right)).jumpOver _ _)
  | call callee arguments =>
      exact ((Expression.noFunctions env callee).append
        (Expression.noFunctionsEach env arguments)).append (Fragment.noFunctions_steps _)
  | get object property =>
      exact (Expression.noFunctions env object).append
        (.withName fun _ => Fragment.noFunctions_steps _)
  | set object property value =>
      exact (Expression.noFunctions env object).append
        (.withName fun _ => (Expression.noFunctions env value).append (Fragment.noFunctions_steps _))
  | invoke object method arguments =>
      exact (Expression.noFunctions env object).append
        (.withName fun _ => (Expression.noFunctionsEach env arguments).append
          (Fragment.noFunctions_steps _))

theorem Expression.noFunctionsEach (env : Environment) (es : List Expression) :
    (Expression.fragmentEach env es).NoFunctions := by
  cases es with
  | nil => exact Fragment.noFunctions_empty
  | cons e es => exact (Expression.noFunctions env e).append (Expression.noFunctionsEach env es)

end

theorem Expression.noFunctions_initial (env : Environment) (value : Option Expression) :
    (Expression.initial env value).NoFunctions := by
  cases value with
  | none => exact Fragment.noFunctions_steps _
  | some value => exact value.noFunctions env

theorem Environment.noFunctions_declaration (env : Environment) (name : Symbol) {value : Fragment}
    (h : value.NoFunctions) : (env.declaration name value).NoFunctions := fun n level =>
  (((env.noFunctions_header name).append h).append (env.noFunctions_define n)) n level

theorem Initializer.noFunctions (env : Environment) (first : Initializer) :
    (first.fragment env).NoFunctions := by
  cases first with
  | absent => exact Fragment.noFunctions_empty
  | «variable» name value =>
      exact env.noFunctions_declaration name (Expression.noFunctions_initial env value)
  | expression value => exact (value.noFunctions env).append (Fragment.noFunctions_steps _)

end Expressions

namespace Fragment

/-- The functions in the constants of a fragment have the plans of some functions of the program,
in order. -/
def Plans (level : Nat) (f : Fragment) (bs : List FunctionBody) : Prop :=
  ∀ n, Item.families level (f n).constants = bs.map fun b => (b.env.level, b.plan)

variable {level : Nat} {f g : Fragment} {bs bs' : List FunctionBody}

theorem NoFunctions.plans (h : f.NoFunctions) : Plans level f [] := fun n => h n level

theorem Plans.append (hf : Plans level f bs) (hg : Plans level g bs') :
    Plans level (f ++ g) (bs ++ bs') := by
  intro n
  rw [append_apply, Piece.constants_append, Item.families_append, hf, hg, List.map_append]

/-- Code without functions before a fragment. -/
theorem Plans.after (hg : Plans level g bs) (hf : f.NoFunctions) : Plans level (f ++ g) bs :=
  hf.plans.append hg

/-- Code without functions after a fragment. -/
theorem Plans.before (hf : Plans level f bs) (hg : g.NoFunctions) : Plans level (f ++ g) bs := by
  have h := hf.append hg.plans
  rwa [List.append_nil] at h

theorem Plans.jumpOver (h : Plans level f bs) (op : Opcode) (extra : Nat) :
    Plans level (jumpOver op extra f) bs := fun n => h n

theorem Plans.drop (h : Plans level f bs) (l base count : Nat) :
    Plans level (drop l base count f) bs := fun n => h n

theorem Plans.sized {g : Nat → Fragment} (hf : Plans level f bs) (hg : ∀ n, Plans level (g n) bs') :
    Plans level (sized f g) (bs ++ bs') := fun n => (hf.append (hg (f n).size)) n

theorem Plans.loop (h : Plans level f bs) (before : Nat) : Plans level (loop before f) bs := by
  have h := h.sized fun size => (noFunctions_steps [.jump .loop (before + size + 3)]).plans
  rwa [List.append_nil] at h

theorem Plans.withName {name : Symbol} {f : Nat → Fragment} (h : ∀ n, Plans level (f n) bs) :
    Plans level (withItem (.string name) f) bs := by
  intro n
  show Item.families level ([Item.string name] ++ (f n (n + 1)).constants) = _
  rw [Item.families_append, h]
  rfl

theorem Plans.counting {condition increment : Option Fragment}
    (hcondition : ∀ c ∈ condition, c.NoFunctions) (hincrement : ∀ i ∈ increment, i.NoFunctions)
    (h : Plans level f bs) : Plans level (counting condition increment f) bs := by
  have hrounds (before : Nat) : Plans level (counting.rounds increment f before) bs := by
    cases increment with
    | none => exact h.loop before
    | some i =>
        have hi : Plans level (i ++ steps [.simple .pop]) [] :=
          ((hincrement i rfl).append (noFunctions_steps [.simple .pop])).plans
        have hall := (((hi.loop (before + 3)).jumpOver .jump 0).append h).sized fun size =>
          (noFunctions_steps [.jump .loop size]).plans
        rwa [List.append_nil] at hall
  cases condition with
  | none => exact hrounds 0
  | some c =>
      have hc : Plans level c [] := (hcondition c rfl).plans
      exact hc.sized fun size =>
        (((hrounds (size + 4)).after (noFunctions_steps [.simple .pop])).jumpOver .jumpIfFalse 0).before
          (noFunctions_steps [.simple .pop])

/-- A closure brings the plan of its function, and of the functions in it. -/
theorem plans_closure (b : FunctionBody) {level : Nat} (hlevel : b.env.level = level + 1)
    {bs : List FunctionBody} (h : Plans (level + 2) b.fragment bs) :
    Plans (level + 1) (closure level b.name b.parameters.length b.fragment) (b :: bs) := by
  intro n
  have hplan : (b.fragment 0).plan (level + 1) b.name b.parameters.length = b.plan := by
    rw [FunctionBody.plan, hlevel]
  show Item.families (level + 1)
    [.function ((b.fragment 0).plan (level + 1) b.name b.parameters.length)] = _
  rw [hplan, Item.families, Item.families, List.append_nil, Plan.family_eq, List.map_cons, hlevel]
  exact congrArg (_ :: ·) (h 0)

end Fragment

theorem Environment.level_declare (env : Environment) (name : Symbol) :
    (env.declare name).level = env.level := by
  rw [env.declare_eq name]
  rfl

theorem Environment.level_declareEach (env : Environment) (names : List Symbol) :
    (env.declareEach names).level = env.level := by
  rw [Environment.declareEach_eq]
  rfl

theorem Environment.level_classBody (env : Environment) (superclass : Option Symbol) :
    (env.classBody superclass).level = env.level := by
  cases superclass with
  | none => rfl
  | some superclass => exact env.enter.level_declare env.names.super

theorem Declaration.level_after (env : Environment) (d : Declaration) :
    (d.after env).level = env.level := by
  cases d with
  | classDeclaration name _ _ | funDeclaration _ | varDeclaration name _ => exact env.level_declare _
  | statement s => rfl

theorem Initializer.level_after (env : Environment) (first : Initializer) :
    (first.after env).level = env.level := by
  cases first with
  | «variable» name value => exact env.level_declare _
  | absent | expression value => rfl

namespace Environment

variable (env : Environment)

theorem noFunctions_reserveEach (env : Environment) (names : List Symbol) :
    (env.reserveEach names).NoFunctions := by
  induction names generalizing env with
  | nil => exact Fragment.noFunctions_empty
  | cons name names ih => exact env.noFunctions_reserve.append (ih _)

theorem plans_declaration {level : Nat} {name : Symbol} {value : Fragment} {bs : List FunctionBody}
    (h : Fragment.Plans level value bs) : Fragment.Plans level (env.declaration name value) bs :=
  fun n => ((h.after (env.noFunctions_header name)).before (env.noFunctions_define n)) n

theorem plans_classFragment {level : Nat} {name : Symbol} {superclass : Option Symbol}
    {methods : Environment → Fragment} {bs : List FunctionBody}
    (h : Fragment.Plans level (methods (env.classBody superclass)) bs) :
    Fragment.Plans level (env.classFragment name superclass methods) bs := by
  cases superclass with
  | none =>
      exact (h.after (env.noFunctions_load name)).before (Fragment.noFunctions_steps _)
  | some superclass =>
      refine Fragment.Plans.after (Fragment.Plans.drop (Fragment.Plans.before (h.after ?_) ?_) _ _ _)
        (env.noFunctions_load superclass)
      · exact ((env.enter.noFunctions_reserve.append (noFunctions_load _ _)).append
          (Fragment.noFunctions_steps _)).append (noFunctions_load _ _)
      · exact Fragment.noFunctions_steps _

end Environment

mutual

theorem Statement.plans (env : Environment) (s : Statement) :
    (s.fragment env).Plans (env.level + 1) (s.functions env) := by
  cases s with
  | expression value | print value =>
      exact ((value.noFunctions env).append (Fragment.noFunctions_steps _)).plans
  | ifThen condition body =>
      exact ((((Statement.plans env body).after (Fragment.noFunctions_steps _)).jumpOver _ _).after
        (condition.noFunctions env)).before ((Fragment.noFunctions_steps _).jumpOver _ _)
  | ifElse condition body otherwise =>
      exact ((((Statement.plans env body).after (Fragment.noFunctions_steps _)).jumpOver _ _).after
        (condition.noFunctions env)).append
          (((Statement.plans env otherwise).after (Fragment.noFunctions_steps _)).jumpOver _ _)
  | whileLoop condition body =>
      exact (((((Statement.plans env body).after (Fragment.noFunctions_steps _)).jumpOver _ _).after
        (condition.noFunctions env)).loop _).before (Fragment.noFunctions_steps _)
  | forLoop first condition increment body =>
      have hlevel : (first.after env.enter).level = env.level := first.level_after env.enter
      have hbody := Statement.plans (first.after env.enter) body
      rw [hlevel] at hbody
      refine (Fragment.Plans.after (.counting ?_ ?_ hbody) (first.noFunctions env.enter)).drop _ _ _
      · intro c hc
        obtain ⟨e, _, rfl⟩ := Option.map_eq_some_iff.mp hc
        exact e.noFunctions _
      · intro i hi
        obtain ⟨e, _, rfl⟩ := Option.map_eq_some_iff.mp hi
        exact e.noFunctions _
  | ret value =>
      cases value with
      | none => exact (Fragment.noFunctions_steps _).plans
      | some value => exact ((value.noFunctions env).append (Fragment.noFunctions_steps _)).plans
  | block inner => exact (Declaration.plansEach env.enter inner).drop _ _ _

theorem Declaration.plans (env : Environment) (d : Declaration) :
    (d.fragment env).Plans (env.level + 1) (d.functions env) := by
  cases d with
  | classDeclaration name superclass methods =>
      have hlevel : ((env.declare name).classBody superclass).level = env.level := by
        rw [Environment.level_classBody, Environment.level_declare]
      have hmethods := FunctionTree.plansEach ((env.declare name).classBody superclass) methods
      rw [hlevel] at hmethods
      exact .withName fun index => ((env.declare name).plans_classFragment hmethods).after
        ((env.noFunctions_reserve.append (Fragment.noFunctions_steps _)).append
          (env.noFunctions_define index))
  | funDeclaration f =>
      have hf := FunctionTree.plans .function (env.declare f.name) f
      rw [Environment.level_declare] at hf
      exact env.plans_declaration hf
  | varDeclaration name value =>
      exact (env.noFunctions_declaration name (Expression.noFunctions_initial env value)).plans
  | statement s => exact Statement.plans env s

theorem Declaration.plansEach (env : Environment) (ds : List Declaration) :
    (Declaration.fragmentEach env ds).Plans (env.level + 1) (Declaration.functionsEach env ds) := by
  cases ds with
  | nil => exact Fragment.noFunctions_empty.plans
  | cons d ds =>
      have hds := Declaration.plansEach (d.after env) ds
      rw [Declaration.level_after] at hds
      exact (Declaration.plans env d).append hds

theorem FunctionTree.plans (kind : FunctionKind) (env : Environment) (f : FunctionTree) :
    (f.fragment kind env).Plans (env.level + 1) (f.functions kind env) := by
  cases f with
  | mk name parameters body =>
      have hinside : ((env.function kind).declareEach parameters).level = env.level + 1 := by
        rw [Environment.level_declareEach]
        rfl
      have hbody := Declaration.plansEach ((env.function kind).declareEach parameters) body
      rw [hinside] at hbody
      exact Fragment.plans_closure ⟨env.function kind, some name, parameters, body⟩ rfl
        ((hbody.after (Environment.noFunctions_reserveEach _ _)).before
          (Fragment.noFunctions_steps _))

theorem FunctionTree.plansEach (env : Environment) (fs : List FunctionTree) :
    (FunctionTree.fragmentEach env fs).Plans (env.level + 1) (FunctionTree.functionsEach env fs) := by
  cases fs with
  | nil => exact Fragment.noFunctions_empty.plans
  | cons f fs =>
      exact (Fragment.Plans.withName fun _ =>
        (FunctionTree.plans (env.names.methodKind f.name) env f).before
          (Fragment.noFunctions_steps _)).append (FunctionTree.plansEach env fs)

end

/-- The plan of a program is the plan of its script. -/
theorem Declaration.plan_eq (names : ImplicitNames) (ds : List Declaration) :
    Declaration.plan names ds = (Declaration.scriptBody names ds).plan := by
  show ((Declaration.fragmentEach (.script names) ds ++ .steps FunctionKind.script.returnSteps) 0).plan
    0 none 0 = ((∅ ++ Declaration.fragmentEach (.script names) ds ++
      .steps FunctionKind.script.returnSteps : Fragment) 0).plan 0 none 0
  rw [Fragment.append_assoc]
  exact congrArg (Piece.plan · 0 none 0) (Piece.empty_append _).symm

/-- The plan of a program has the plans of its functions. -/
theorem Declaration.family_plan (names : ImplicitNames) (ds : List Declaration) :
    (Declaration.plan names ds).family 0 =
      (Declaration.bodies names ds).map fun b => (b.env.level, b.plan) := by
  rw [Declaration.plan_eq, Plan.family_eq, Declaration.bodies, List.map_cons]
  exact congrArg (_ :: ·) (((Declaration.plansEach (.script names) ds).after
    (Environment.noFunctions_reserveEach _ _)).before (Fragment.noFunctions_steps _) 0)

end LoxCompiler
