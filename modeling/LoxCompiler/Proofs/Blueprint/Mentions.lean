import LoxCompiler.Proofs.WellFormed.Program

/-! # Mentions of variables

Where a function and the functions in it name variables, in the order of the text. What a function
captures are the variables of the functions around it that are mentioned in this way, each where it
is mentioned first.
-/

namespace LoxCompiler

open Compile (unaryCode binaryCode)
open Fragment (simple step steps withItem jumpOver)

/-- A name of a variable in a program, with the place where it stands. -/
structure Mention where
  env : Environment
  name : Symbol

/-- The local variable that is meant, of the function or of one around it. There is none if the
variable is global. -/
def Mention.meant? (m : Mention) : Option Variable :=
  Variable.find? m.name (m.env.locals :: m.env.outer)

/-! ## The mentions in trees -/

mutual

/-- The mentions in an expression. To mention the superclass is to mention the receiver, too: it
comes at the start, and the superclass at the end. -/
def Expression.mentions (env : Environment) : Expression → List Mention
  | .literal _ => []
  | .variable name => [⟨env, name⟩]
  | .assign name value => ⟨env, name⟩ :: value.mentions env
  | .receiver => [⟨env, env.names.this⟩]
  | .superGet _ => [⟨env, env.names.this⟩, ⟨env, env.names.super⟩]
  | .superCall _ arguments =>
      ⟨env, env.names.this⟩ :: Expression.mentionsEach env arguments ++ [⟨env, env.names.super⟩]
  | .group inner => inner.mentions env
  | .unary _ operand => operand.mentions env
  | .binary _ left right | .and left right | .or left right =>
      left.mentions env ++ right.mentions env
  | .call callee arguments => callee.mentions env ++ Expression.mentionsEach env arguments
  | .get object _ => object.mentions env
  | .set object _ value => object.mentions env ++ value.mentions env
  | .invoke object _ arguments => object.mentions env ++ Expression.mentionsEach env arguments

/-- The mentions in some expressions, one after the other. -/
def Expression.mentionsEach (env : Environment) : List Expression → List Mention
  | [] => []
  | e :: es => e.mentions env ++ Expression.mentionsEach env es

end

/-- The mentions in an expression that may be absent. -/
def Expression.mentionsOption (env : Environment) : Option Expression → List Mention
  | none => []
  | some e => e.mentions env

/-- The mentions in the first clause of a loop. -/
def Initializer.mentions (env : Environment) : Initializer → List Mention
  | .absent => []
  | .variable _ value => Expression.mentionsOption env value
  | .expression value => value.mentions env

/-- The mention of the superclass of a class. -/
def Environment.superclassMentions (env : Environment) : Option Symbol → List Mention
  | none => []
  | some superclass => [⟨env, superclass⟩]

mutual

/-- The mentions in a statement, with those in the functions in it. -/
def Statement.mentions (env : Environment) : Statement → List Mention
  | .expression value | .print value => value.mentions env
  | .ifThen condition body | .whileLoop condition body =>
      condition.mentions env ++ body.mentions env
  | .ifElse condition body otherwise =>
      condition.mentions env ++ body.mentions env ++ otherwise.mentions env
  | .forLoop first condition increment body =>
      let inside := first.after env.enter
      first.mentions env.enter ++ (Expression.mentionsOption inside condition ++
        (Expression.mentionsOption inside increment ++ body.mentions inside))
  | .ret value => Expression.mentionsOption env value
  | .block inner => Declaration.mentionsEach env.enter inner

/-- The mentions in a declaration, with those in the functions in it. -/
def Declaration.mentions (env : Environment) : Declaration → List Mention
  | .classDeclaration name superclass methods =>
      (env.declare name).superclassMentions superclass ++
        FunctionTree.mentionsEach ((env.declare name).classBody superclass) methods
  | .funDeclaration f => f.mentions .function (env.declare f.name)
  | .varDeclaration _ value => Expression.mentionsOption env value
  | .statement s => s.mentions env

/-- The mentions in some declarations, one after the other. -/
def Declaration.mentionsEach (env : Environment) : List Declaration → List Mention
  | [] => []
  | d :: ds => d.mentions env ++ Declaration.mentionsEach (d.after env) ds

/-- The mentions in a function, with those in the functions in it. -/
def FunctionTree.mentions (kind : FunctionKind) (env : Environment) : FunctionTree → List Mention
  | .mk _ parameters body =>
      Declaration.mentionsEach ((env.function kind).declareEach parameters) body

/-- The mentions in some methods. -/
def FunctionTree.mentionsEach (env : Environment) : List FunctionTree → List Mention
  | [] => []
  | f :: fs => f.mentions (env.names.methodKind f.name) env ++ FunctionTree.mentionsEach env fs

end

/-- The mentions in a function, with those in the functions in it. -/
def FunctionBody.mentions (b : FunctionBody) : List Mention :=
  Declaration.mentionsEach b.inside b.body

/-! ## The mentions of fragments -/

namespace Fragment

/-- A fragment of a function at some level uses the variables of the functions around that some
mentions mean, in their order. -/
def Mentions (level : Nat) (f : Fragment) (ms : List Mention) : Prop :=
  ∀ n, exported level (f n).uses = exported level (ms.filterMap Mention.meant?)

namespace Mentions

variable {level : Nat} {f g : Fragment} {ms ms' : List Mention}

/-- Code that uses no captured variables. -/
theorem of_uses_nil (h : ∀ n, (f n).uses = []) : f.Mentions level [] := fun n =>
  congrArg (exported level) (h n)

theorem empty : (∅ : Fragment).Mentions level [] := of_uses_nil fun _ => rfl

theorem steps (code : List Step) : (Fragment.steps code).Mentions level [] :=
  of_uses_nil fun _ => rfl

theorem item (value : Item) : (Fragment.item value).Mentions level [] := of_uses_nil fun _ => rfl

theorem append (hf : f.Mentions level ms) (hg : g.Mentions level ms') :
    (f ++ g).Mentions level (ms ++ ms') := by
  intro n
  rw [append_apply, Piece.uses_append, exported_append, hf, hg, List.filterMap_append,
    exported_append]

/-- Code without mentions after a fragment. -/
theorem before (hf : f.Mentions level ms) (hg : g.Mentions level []) :
    (f ++ g).Mentions level ms := by
  have h := hf.append hg
  rwa [List.append_nil] at h

/-- Code without mentions before a fragment. -/
theorem after (hg : g.Mentions level ms) (hf : f.Mentions level []) :
    (f ++ g).Mentions level ms := hf.append hg

theorem withItem {value : Item} {f : Nat → Fragment} (h : ∀ n, (f n).Mentions level ms) :
    (withItem value f).Mentions level ms := fun n => ((h n).after (item value)) n

theorem jumpOver (h : f.Mentions level ms) (op : Opcode) (extra : Nat) :
    (jumpOver op extra f).Mentions level ms := h

theorem sized {g : Nat → Fragment} (hf : f.Mentions level ms)
    (hg : ∀ n, (g n).Mentions level ms') : (sized f g).Mentions level (ms ++ ms') :=
  fun n => (hf.append (hg (f n).size)) n

theorem loop (h : f.Mentions level ms) (size : Nat) : (loop size f).Mentions level ms := by
  have h := h.sized fun n => steps [.jump .loop (size + n + 3)]
  rwa [List.append_nil] at h

/-- The locals that are dropped are those of the function itself. -/
theorem drop (h : f.Mentions level ms) (base count : Nat) :
    (drop level base count f).Mentions level ms := by
  intro n
  rw [← h n]
  show List.filter _ (List.filter _ _) = List.filter _ _
  rw [List.filter_filter]
  apply List.filter_congr
  intro v _
  rw [Bool.and_eq_left_iff_imp, decide_eq_true_eq, decide_eq_true_eq]
  exact fun hv hown => Nat.ne_of_lt hv hown.1

/-- A closure uses what the functions around its own one have to provide. -/
theorem closure (h : f.Mentions (level + 1) ms) (name : Option Symbol) (arity : Nat) :
    (closure level name arity f).Mentions level ms := by
  have houtwards (vs : List Variable) : exported level (exported (level + 1) vs) =
      exported level vs := by
    unfold exported
    rw [List.filter_filter]
    apply List.filter_congr
    intro v _
    rw [Bool.and_eq_left_iff_imp, decide_eq_true_eq, decide_eq_true_eq]
    exact Nat.lt_succ_of_lt
  intro n
  show exported level (exported (level + 1) (f 0).uses ++ []) = _
  rw [List.append_nil, h, houtwards]

theorem counting {condition increment : Option Fragment} {ms₁ ms₂ : List Mention}
    (hcondition : (condition.getD ∅).Mentions level ms₁)
    (hincrement : (increment.getD ∅).Mentions level ms₂) (h : f.Mentions level ms) :
    (counting condition increment f).Mentions level (ms₁ ++ (ms₂ ++ ms)) := by
  have hpop : (simple .pop).Mentions level [] := steps [.simple .pop]
  have hrounds (size : Nat) : (counting.rounds increment f size).Mentions level (ms₂ ++ ms) := by
    cases increment with
    | none => exact (hincrement.append h).loop size
    | some i =>
        have hi : (i ++ simple .pop).Mentions level ms₂ := Mentions.before hincrement hpop
        have hall := (((hi.loop (size + 3)).jumpOver .jump 0).append h).sized fun size =>
          steps [.jump .loop size]
        rwa [List.append_nil] at hall
  cases condition with
  | none => exact hcondition.append (hrounds 0)
  | some c =>
      have hc : c.Mentions level ms₁ := hcondition
      exact hc.sized fun size =>
        (((hrounds (size + 4)).after hpop).jumpOver .jumpIfFalse 0).before hpop

end Mentions

end Fragment

/-! ## The mentions of the code of trees -/

namespace Environment

variable (env : Environment)

/-- Outside all scopes there are no functions around. -/
def Rooted : Prop := env.scopes = [] → env.outer = []

variable {env}

theorem rooted_of_scopes (h : env.scopes ≠ []) : env.Rooted := fun hscopes => (h hscopes).elim

theorem Rooted.declare (h : env.Rooted) (name : Symbol) : (env.declare name).Rooted := by
  cases hscopes : env.scopes with
  | nil =>
      unfold Environment.declare
      rw [hscopes]
      exact h
  | cons scope outer =>
      apply rooted_of_scopes
      unfold Environment.declare
      rw [hscopes]
      exact List.cons_ne_nil _ _

theorem Rooted.declareEach (h : env.Rooted) (names : List Symbol) :
    (env.declareEach names).Rooted := by
  induction names generalizing env with
  | nil => exact h
  | cons name names ih => exact ih (h.declare name)

theorem rooted_enter (env : Environment) : env.enter.Rooted :=
  rooted_of_scopes (List.cons_ne_nil _ _)

theorem rooted_function (env : Environment) (kind : FunctionKind) : (env.function kind).Rooted :=
  rooted_of_scopes (List.cons_ne_nil _ _)

theorem Rooted.classBody (h : env.Rooted) (superclass : Option Symbol) :
    (env.classBody superclass).Rooted := by
  cases superclass with
  | none => exact h
  | some superclass => exact env.rooted_enter.declare env.names.super

variable (env)

theorem mentions_locate (name : Symbol) :
    (env.locate name).Mentions env.level [⟨env, name⟩] := by
  intro n
  rw [List.filterMap_cons, Mention.meant?, Variable.find?]
  unfold locate place
  cases slot? name env.locals with
  | some slot =>
      show [] = exported env.level [⟨env.level, slot⟩]
      simp [exported]
  | none => cases Variable.find? name env.outer <;> rfl

theorem mentions_reach {name : Symbol} {f : Place → Fragment} {ms : List Mention}
    (h : ∀ place, (f place).Mentions env.level ms) :
    (env.reach name f).Mentions env.level (⟨env, name⟩ :: ms) :=
  fun n => ((env.mentions_locate name).append (h (env.place name n))) n

theorem mentions_load (name : Symbol) : (env.load name).Mentions env.level [⟨env, name⟩] :=
  env.mentions_reach fun _ => .steps _

/-- No function around is asked for a name: it is one of a local, or there are no functions
around. -/
def Own (name : Symbol) : Prop := env.outer = [] ∨ ∃ slot, slot? name env.locals = some slot

variable {env}

theorem Rooted.own_declare (h : env.Rooted) (name : Symbol) : (env.declare name).Own name := by
  cases hscopes : env.scopes with
  | nil => exact .inl ((env.outer_declare name).trans (h hscopes))
  | cons scope outer =>
      refine .inr ⟨((scope ++ outer.flatten) ++ [env.receiver]).length, ?_⟩
      unfold Environment.declare
      rw [hscopes]
      exact if_pos rfl

theorem Own.declare_enter {name : Symbol} (h : env.Own name) (other : Symbol) :
    (env.enter.declare other).Own name := by
  refine h.imp id fun ⟨slot, hslot⟩ => ?_
  show ∃ s, (if other = name then _ else slot? name env.locals) = some s
  split
  · exact ⟨_, rfl⟩
  · exact ⟨slot, hslot⟩

/-- Such a name is no captured variable. -/
theorem Own.mentions_load {name : Symbol} (h : env.Own name) :
    (env.load name).Mentions env.level [] := by
  apply Fragment.Mentions.of_uses_nil
  intro n
  show (env.locate name n).uses ++ [] = []
  rw [List.append_nil]
  unfold locate place
  rcases h with h | ⟨slot, h⟩
  · rw [h]
    cases slot? name env.locals <;> rfl
  · rw [h]
    rfl

variable (env)

theorem mentions_reserve (level : Nat) : env.reserve.Mentions level [] := by
  unfold reserve
  split <;> exact .of_uses_nil fun _ => rfl

theorem mentions_header (name : Symbol) : (env.header name).Mentions env.level [] := by
  unfold header
  split
  · exact .item _
  · exact env.mentions_reserve _

theorem mentions_define (index : Nat) : (env.define index).Mentions env.level [] := by
  unfold define
  split <;> exact .of_uses_nil fun _ => rfl

theorem mentions_declaration {name : Symbol} {value : Fragment} {ms : List Mention}
    (h : value.Mentions env.level ms) : (env.declaration name value).Mentions env.level ms :=
  fun n => ((h.after (env.mentions_header name)).before (env.mentions_define n)) n

end Environment

section Trees

/-- A literal mentions nothing. -/
theorem Literal.mentions (level : Nat) (value : Literal Symbol) : value.fragment.Mentions level [] := by
  cases value with
  | nil => exact .steps _
  | boolean value => cases value <;> exact .steps _
  | number value | string value => exact .withItem fun _ => .steps _

mutual

theorem Expression.mentions_fragment (env : Environment) (e : Expression) :
    (e.fragment env).Mentions env.level (e.mentions env) := by
  cases e with
  | literal value => exact value.mentions env.level
  | «variable» name => exact env.mentions_load name
  | assign name value =>
      exact env.mentions_reach fun _ => (Expression.mentions_fragment env value).before (.steps _)
  | receiver => exact env.mentions_load _
  | superGet method =>
      exact .withItem fun _ => ((env.mentions_load _).append (env.mentions_load _)).before (.steps _)
  | superCall method arguments =>
      exact .withItem fun _ => (((env.mentions_load _).append
        (Expression.mentions_fragmentEach env arguments)).append (env.mentions_load _)).before
          (.steps _)
  | group inner => exact Expression.mentions_fragment env inner
  | unary op operand => exact (Expression.mentions_fragment env operand).before (.steps _)
  | binary op left right =>
      exact ((Expression.mentions_fragment env left).append
        (Expression.mentions_fragment env right)).before (.steps _)
  | and left right =>
      exact (Expression.mentions_fragment env left).append
        (((Expression.mentions_fragment env right).after (.steps _)).jumpOver _ _)
  | or left right =>
      exact ((Expression.mentions_fragment env left).before (.steps _)).append
        (((Expression.mentions_fragment env right).after (.steps _)).jumpOver _ _)
  | call callee arguments =>
      exact ((Expression.mentions_fragment env callee).append
        (Expression.mentions_fragmentEach env arguments)).before (.steps _)
  | get object property =>
      exact (Expression.mentions_fragment env object).before (.withItem fun _ => .steps _)
  | set object property value =>
      exact (Expression.mentions_fragment env object).append
        (.withItem fun _ => (Expression.mentions_fragment env value).before (.steps _))
  | invoke object method arguments =>
      exact (Expression.mentions_fragment env object).append
        (.withItem fun _ => (Expression.mentions_fragmentEach env arguments).before (.steps _))

theorem Expression.mentions_fragmentEach (env : Environment) (es : List Expression) :
    (Expression.fragmentEach env es).Mentions env.level (Expression.mentionsEach env es) := by
  cases es with
  | nil => exact .empty
  | cons e es =>
      exact (Expression.mentions_fragment env e).append (Expression.mentions_fragmentEach env es)

end

theorem Expression.mentions_initial (env : Environment) (value : Option Expression) :
    (Expression.initial env value).Mentions env.level (Expression.mentionsOption env value) := by
  cases value with
  | none => exact .steps _
  | some value => exact value.mentions_fragment env

theorem Expression.mentions_getD (env : Environment) (value : Option Expression) :
    ((value.map (Expression.fragment env)).getD ∅).Mentions env.level
      (Expression.mentionsOption env value) := by
  cases value with
  | none => exact .empty
  | some value => exact value.mentions_fragment env

theorem Initializer.mentions_fragment (env : Environment) (first : Initializer) :
    (first.fragment env).Mentions env.level (first.mentions env) := by
  cases first with
  | absent => exact .empty
  | «variable» name value =>
      exact env.mentions_declaration (Expression.mentions_initial env value)
  | expression value => exact (value.mentions_fragment env).before (.steps _)

theorem Initializer.rooted_after {env : Environment} (h : env.Rooted) (first : Initializer) :
    (first.after env).Rooted := by
  cases first with
  | «variable» name value => exact h.declare name
  | absent | expression value => exact h

theorem Declaration.rooted_after {env : Environment} (h : env.Rooted) (d : Declaration) :
    (d.after env).Rooted := by
  cases d with
  | classDeclaration name _ _ | funDeclaration _ | varDeclaration name _ => exact h.declare _
  | statement s => exact h

namespace Environment

variable {env : Environment}

theorem mentions_reserveEach (env : Environment) (names : List Symbol) (level : Nat) :
    (env.reserveEach names).Mentions level [] := by
  induction names generalizing env with
  | nil => exact .empty
  | cons name names ih => exact (env.mentions_reserve level).append (ih _)

/-- A class mentions its superclass, and what its methods mention. -/
theorem Own.mentions_classFragment {name : Symbol} (h : env.Own name) {superclass : Option Symbol}
    (methods : Environment → Fragment) {ms : List Mention}
    (hmethods : (methods (env.classBody superclass)).Mentions env.level ms) :
    (env.classFragment name superclass methods).Mentions env.level
      (env.superclassMentions superclass ++ ms) := by
  cases superclass with
  | none => exact (hmethods.after h.mentions_load).before (.steps _)
  | some superclass =>
      have hinside : (env.enter.declare env.names.super).level = env.level :=
        env.enter.level_declare env.names.super
      have hload := (h.declare_enter env.names.super).mentions_load
      rw [hinside] at hload
      refine (env.mentions_load superclass).append (.drop (.before (.after hmethods ?_) (.steps _)) _ _)
      exact (((env.enter.mentions_reserve _).append hload).append (.steps _)).append hload

end Environment

mutual

theorem Statement.mentions_fragment {env : Environment} (h : env.Rooted) (s : Statement) :
    (s.fragment env).Mentions env.level (s.mentions env) := by
  cases s with
  | expression value | print value => exact (value.mentions_fragment env).before (.steps _)
  | ifThen condition body =>
      exact ((condition.mentions_fragment env).append
        (((Statement.mentions_fragment h body).after (.steps _)).jumpOver _ _)).before
          ((Fragment.Mentions.steps _).jumpOver _ _)
  | ifElse condition body otherwise =>
      exact ((condition.mentions_fragment env).append
        (((Statement.mentions_fragment h body).after (.steps _)).jumpOver _ _)).append
          (((Statement.mentions_fragment h otherwise).after (.steps _)).jumpOver _ _)
  | whileLoop condition body =>
      exact (((condition.mentions_fragment env).append
        (((Statement.mentions_fragment h body).after (.steps _)).jumpOver _ _)).loop 0).before
          (.steps _)
  | forLoop first condition increment body =>
      have hlevel : (first.after env.enter).level = env.level := first.level_after env.enter
      have hcondition := Expression.mentions_getD (first.after env.enter) condition
      have hincrement := Expression.mentions_getD (first.after env.enter) increment
      have hbody := Statement.mentions_fragment (first.rooted_after env.rooted_enter) body
      rw [hlevel] at hcondition hincrement hbody
      exact ((first.mentions_fragment env.enter).append
        (.counting hcondition hincrement hbody)).drop _ _
  | ret value =>
      cases value with
      | none => exact .steps _
      | some value => exact (value.mentions_fragment env).before (.steps _)
  | block inner => exact (Declaration.mentions_fragmentEach env.rooted_enter inner).drop _ _

theorem Declaration.mentions_fragment {env : Environment} (h : env.Rooted) (d : Declaration) :
    (d.fragment env).Mentions env.level (d.mentions env) := by
  cases d with
  | classDeclaration name superclass methods =>
      have hlevel : ((env.declare name).classBody superclass).level = (env.declare name).level :=
        Environment.level_classBody _ _
      have hmethods := FunctionTree.mentions_fragmentEach ((h.declare name).classBody superclass) methods
      rw [hlevel] at hmethods
      have hclass := (h.own_declare name).mentions_classFragment
        (fun inside => FunctionTree.fragmentEach inside methods) hmethods
      rw [Environment.level_declare] at hclass
      exact .withItem fun index =>
        hclass.after (((env.mentions_reserve _).append (.steps _)).append (env.mentions_define index))
  | funDeclaration f =>
      have hf := FunctionTree.mentions_fragment .function (env.declare f.name) f
      rw [Environment.level_declare] at hf
      exact env.mentions_declaration hf
  | varDeclaration name value =>
      exact env.mentions_declaration (Expression.mentions_initial env value)
  | statement s => exact Statement.mentions_fragment h s

theorem Declaration.mentions_fragmentEach {env : Environment} (h : env.Rooted)
    (ds : List Declaration) :
    (Declaration.fragmentEach env ds).Mentions env.level (Declaration.mentionsEach env ds) := by
  cases ds with
  | nil => exact .empty
  | cons d ds =>
      have hds := Declaration.mentions_fragmentEach (d.rooted_after h) ds
      rw [Declaration.level_after] at hds
      exact (Declaration.mentions_fragment h d).append hds

theorem FunctionTree.mentions_fragment (kind : FunctionKind) (env : Environment) (f : FunctionTree) :
    (f.fragment kind env).Mentions env.level (f.mentions kind env) := by
  cases f with
  | mk name parameters body =>
      have hinside : ((env.function kind).declareEach parameters).level = env.level + 1 := by
        rw [Environment.level_declareEach]
        rfl
      have hbody := Declaration.mentions_fragmentEach
        ((env.rooted_function kind).declareEach parameters) body
      rw [hinside] at hbody
      exact .closure ((hbody.after (Environment.mentions_reserveEach _ _ _)).before (.steps _)) _ _

theorem FunctionTree.mentions_fragmentEach {env : Environment} (h : env.Rooted)
    (fs : List FunctionTree) :
    (FunctionTree.fragmentEach env fs).Mentions env.level (FunctionTree.mentionsEach env fs) := by
  cases fs with
  | nil => exact .empty
  | cons f fs =>
      exact (Fragment.Mentions.withItem fun _ => (FunctionTree.mentions_fragment
        (env.names.methodKind f.name) env f).before (.steps _)).append
          (FunctionTree.mentions_fragmentEach h fs)

end

end Trees

/-! ## What a function captures -/

namespace FunctionBody

variable (b : FunctionBody)

/-- A function captures the variables of the functions around that are mentioned in it, each where
it is mentioned first. -/
theorem captures_eq (h : b.env.Rooted) :
    b.plan.captures = captureAll b.env.level (b.mentions.filterMap Mention.meant?) := by
  have hinside : b.inside.level = b.env.level := b.env.level_declareEach b.parameters
  have hbody := Declaration.mentions_fragmentEach (h.declareEach b.parameters) b.body
  rw [show (b.env.declareEach b.parameters).level = b.env.level from hinside] at hbody
  have hwhole : b.fragment.Mentions b.env.level b.mentions :=
    (hbody.after (Environment.mentions_reserveEach _ _ _)).before (.steps _)
  exact congrArg (List.foldl capture []) (hwhole 0)

end FunctionBody

/-! ## Where functions and mentions stand -/

mutual

theorem Statement.rooted_functions (env : Environment) (s : Statement) :
    ∀ b ∈ s.functions env, b.env.Rooted := by
  cases s with
  | expression value | print value | ret value => exact nofun
  | ifThen condition body | whileLoop condition body => exact Statement.rooted_functions env body
  | ifElse condition body otherwise =>
      exact List.forall_mem_append.mpr
        ⟨Statement.rooted_functions env body, Statement.rooted_functions env otherwise⟩
  | forLoop first condition increment body => exact Statement.rooted_functions _ body
  | block inner => exact Declaration.rooted_functionsEach env.enter inner

theorem Declaration.rooted_functions (env : Environment) (d : Declaration) :
    ∀ b ∈ d.functions env, b.env.Rooted := by
  cases d with
  | classDeclaration name superclass methods => exact FunctionTree.rooted_functionsEach _ methods
  | funDeclaration f => exact FunctionTree.rooted_functions .function _ f
  | varDeclaration name value => exact nofun
  | statement s => exact Statement.rooted_functions env s

theorem Declaration.rooted_functionsEach (env : Environment) (ds : List Declaration) :
    ∀ b ∈ Declaration.functionsEach env ds, b.env.Rooted := by
  cases ds with
  | nil => exact nofun
  | cons d ds =>
      exact List.forall_mem_append.mpr
        ⟨Declaration.rooted_functions env d, Declaration.rooted_functionsEach (d.after env) ds⟩

theorem FunctionTree.rooted_functions (kind : FunctionKind) (env : Environment) (f : FunctionTree) :
    ∀ b ∈ f.functions kind env, b.env.Rooted := by
  cases f with
  | mk name parameters body =>
      exact List.forall_mem_cons.mpr
        ⟨env.rooted_function kind, Declaration.rooted_functionsEach _ body⟩

theorem FunctionTree.rooted_functionsEach (env : Environment) (fs : List FunctionTree) :
    ∀ b ∈ FunctionTree.functionsEach env fs, b.env.Rooted := by
  cases fs with
  | nil => exact nofun
  | cons f fs =>
      exact List.forall_mem_append.mpr
        ⟨FunctionTree.rooted_functions _ env f, FunctionTree.rooted_functionsEach env fs⟩

end

theorem Declaration.rooted_bodies (names : ImplicitNames) (ds : List Declaration) :
    ∀ b ∈ Declaration.bodies names ds, b.env.Rooted :=
  List.forall_mem_cons.mpr ⟨fun _ => rfl, Declaration.rooted_functionsEach _ ds⟩

mutual

/-- An expression mentions variables where it stands. -/
theorem Expression.env_eq_of_mem_mentions (env : Environment) (e : Expression) :
    ∀ m ∈ e.mentions env, m.env = env := by
  cases e with
  | literal value => exact nofun
  | «variable» name | receiver => exact List.forall_mem_singleton.mpr rfl
  | assign name value =>
      exact List.forall_mem_cons.mpr ⟨rfl, Expression.env_eq_of_mem_mentions env value⟩
  | superGet method =>
      exact List.forall_mem_cons.mpr ⟨rfl, List.forall_mem_singleton.mpr rfl⟩
  | superCall method arguments =>
      exact List.forall_mem_append.mpr ⟨List.forall_mem_cons.mpr
        ⟨rfl, Expression.env_eq_of_mem_mentionsEach env arguments⟩, List.forall_mem_singleton.mpr rfl⟩
  | group inner | unary op inner | get inner property =>
      exact Expression.env_eq_of_mem_mentions env inner
  | binary op left right | and left right | or left right | set left property right =>
      exact List.forall_mem_append.mpr ⟨Expression.env_eq_of_mem_mentions env left,
        Expression.env_eq_of_mem_mentions env right⟩
  | call callee arguments | invoke callee method arguments =>
      exact List.forall_mem_append.mpr ⟨Expression.env_eq_of_mem_mentions env callee,
        Expression.env_eq_of_mem_mentionsEach env arguments⟩

theorem Expression.env_eq_of_mem_mentionsEach (env : Environment) (es : List Expression) :
    ∀ m ∈ Expression.mentionsEach env es, m.env = env := by
  cases es with
  | nil => exact nofun
  | cons e es =>
      exact List.forall_mem_append.mpr ⟨Expression.env_eq_of_mem_mentions env e,
        Expression.env_eq_of_mem_mentionsEach env es⟩

end

/-- The functions around a place are around all mentions in what stands there. -/
def Mention.AllInside (outer : List (List Symbol)) (ms : List Mention) : Prop :=
  ∀ m ∈ ms, outer <:+ m.env.outer

namespace Mention.AllInside

variable {outer : List (List Symbol)} {ms ms' : List Mention}

theorem append (h : AllInside outer ms) (h' : AllInside outer ms') : AllInside outer (ms ++ ms') :=
  List.forall_mem_append.mpr ⟨h, h'⟩

theorem mono {more : List (List Symbol)} (h : AllInside more ms) (hsuffix : outer <:+ more) :
    AllInside outer ms := fun m hm => hsuffix.trans (h m hm)

end Mention.AllInside

section Inside

open Mention (AllInside)

theorem Expression.allInside (env : Environment) (e : Expression) :
    AllInside env.outer (e.mentions env) := by
  intro m hm
  exact e.env_eq_of_mem_mentions env m hm ▸ List.suffix_refl _

theorem Expression.allInside_option (env : Environment) (value : Option Expression) :
    AllInside env.outer (Expression.mentionsOption env value) := by
  cases value with
  | none => exact nofun
  | some value => exact value.allInside env

theorem Initializer.allInside (env : Environment) (first : Initializer) :
    AllInside env.outer (first.mentions env) := by
  cases first with
  | absent => exact nofun
  | «variable» name value => exact Expression.allInside_option env value
  | expression value => exact value.allInside env

theorem Environment.outer_classBody (env : Environment) (superclass : Option Symbol) :
    (env.classBody superclass).outer = env.outer := by
  cases superclass with
  | none => rfl
  | some superclass => exact env.enter.outer_declare env.names.super

theorem Environment.allInside_superclass (env : Environment) (superclass : Option Symbol) :
    AllInside env.outer (env.superclassMentions superclass) := by
  cases superclass with
  | none => exact nofun
  | some superclass => exact List.forall_mem_singleton.mpr (List.suffix_refl _)

mutual

theorem Statement.allInside (env : Environment) (s : Statement) :
    AllInside env.outer (s.mentions env) := by
  cases s with
  | expression value | print value => exact value.allInside env
  | ifThen condition body | whileLoop condition body =>
      exact (condition.allInside env).append (Statement.allInside env body)
  | ifElse condition body otherwise =>
      exact ((condition.allInside env).append (Statement.allInside env body)).append
        (Statement.allInside env otherwise)
  | forLoop first condition increment body =>
      have houter : (first.after env.enter).outer = env.outer := first.outer_after env.enter
      have hclauses (value : Option Expression) :=
        Expression.allInside_option (first.after env.enter) value
      have hbody := Statement.allInside (first.after env.enter) body
      simp only [houter] at hclauses hbody
      exact (first.allInside env.enter).append
        ((hclauses condition).append ((hclauses increment).append hbody))
  | ret value => exact Expression.allInside_option env value
  | block inner => exact Declaration.allInsideEach env.enter inner

theorem Declaration.allInside (env : Environment) (d : Declaration) :
    AllInside env.outer (d.mentions env) := by
  cases d with
  | classDeclaration name superclass methods =>
      have hsuperclass := (env.declare name).allInside_superclass superclass
      have hmethods := FunctionTree.allInsideEach ((env.declare name).classBody superclass) methods
      rw [Environment.outer_classBody, env.outer_declare] at hmethods
      rw [env.outer_declare] at hsuperclass
      exact hsuperclass.append hmethods
  | funDeclaration f =>
      have hf := FunctionTree.allInside .function (env.declare f.name) f
      rw [env.outer_declare] at hf
      exact hf
  | varDeclaration name value => exact Expression.allInside_option env value
  | statement s => exact Statement.allInside env s

theorem Declaration.allInsideEach (env : Environment) (ds : List Declaration) :
    AllInside env.outer (Declaration.mentionsEach env ds) := by
  cases ds with
  | nil => exact nofun
  | cons d ds =>
      have hds := Declaration.allInsideEach (d.after env) ds
      rw [Declaration.outer_after] at hds
      exact (Declaration.allInside env d).append hds

theorem FunctionTree.allInside (kind : FunctionKind) (env : Environment) (f : FunctionTree) :
    AllInside env.outer (f.mentions kind env) := by
  cases f with
  | mk name parameters body =>
      have hbody := Declaration.allInsideEach ((env.function kind).declareEach parameters) body
      rw [Environment.outer_declareEach] at hbody
      exact hbody.mono (List.suffix_cons _ _)

theorem FunctionTree.allInsideEach (env : Environment) (fs : List FunctionTree) :
    AllInside env.outer (FunctionTree.mentionsEach env fs) := by
  cases fs with
  | nil => exact nofun
  | cons f fs =>
      exact (FunctionTree.allInside _ env f).append (FunctionTree.allInsideEach env fs)

end

/-- What is around a function is around all that is mentioned in it, so the locals of the functions
around are the same at every mention. -/
theorem FunctionBody.allInside (b : FunctionBody) : AllInside b.env.outer b.mentions := by
  have hbody := Declaration.allInsideEach b.inside b.body
  rwa [show b.inside.outer = b.env.outer from b.env.outer_declareEach b.parameters] at hbody

end Inside

end LoxCompiler
