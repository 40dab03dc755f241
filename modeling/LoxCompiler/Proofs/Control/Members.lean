import LoxCompiler.Proofs.Control.Scopes
import LoxCompiler.Proofs.Simulation.Statement
import Mathlib.Data.List.Chain

/-! # Classes and their methods

Every function of a program is listed with the functions around it, and methods with their classes.
The receiver is the oldest local of a method, and no other local has its name. The superclass of a
class is the only local of its name in the function around, and it is in the slot after the locals
that are there before the class.
-/

namespace LoxCompiler

open Fragment (simple step withItem)

/-- A class of a program. -/
structure ClassBody where
  /-- The place after its name was declared. -/
  env : Environment
  /-- Where the code for this place begins. -/
  site : Site
  superclass : Option Symbol

/-- The place where the methods of a class stand. -/
def ClassBody.inside (c : ClassBody) : Environment := c.env.classBody c.superclass

/-- What is known of a class in its methods. -/
def ClassBody.context (c : ClassBody) : ClassContext := ⟨c.superclass.isSome⟩

/-- A function of a program, with the class whose method it is, if it is one. -/
structure Member where
  body : FunctionBody
  owner : Option ClassBody

/-- The class of the innermost method among functions inside each other, with the functions around
this method. -/
def Member.innermost? : List Member → Option (ClassBody × List Member)
  | [] => none
  | m :: around =>
      match m.owner with
      | some c => some (c, around)
      | none => innermost? around

/-! ## The functions around each function -/

mutual

/-- The functions in a statement, each followed by those around it. -/
def Statement.lineages (around : List Member) (env : Environment) (site : Site) :
    Statement → List (List Member)
  | .expression _ | .print _ | .ret _ => []
  | .ifThen condition body | .whileLoop condition body =>
      body.lineages around env ((site.after (condition.fragment env)).skip 4)
  | .ifElse condition body otherwise =>
      let start := (site.after (condition.fragment env)).skip 4
      body.lineages around env start ++
        otherwise.lineages around env ((start.after (body.fragment env)).skip 4)
  | .forLoop first condition increment body =>
      let inside := first.after env.enter
      body.lineages around inside ((site.after (first.fragment env.enter)).body
        (condition.map (Expression.fragment inside)) (increment.map (Expression.fragment inside)))
  | .block inner => Declaration.lineagesEach around env.enter site inner

/-- The functions in a declaration, each followed by those around it. -/
def Declaration.lineages (around : List Member) (env : Environment) (site : Site) :
    Declaration → List (List Member)
  | .classDeclaration name superclass methods =>
      let start := site.after (withItem (.string name) fun index =>
        env.reserve ++ step (.constant .makeClass index) ++ env.define index)
      FunctionTree.lineagesEach around ⟨env.declare name, start, superclass⟩ methods
  | .funDeclaration f => f.lineages around none .function (env.declare f.name)
  | .varDeclaration _ _ => []
  | .statement s => s.lineages around env site

/-- The functions in some declarations in a row. -/
def Declaration.lineagesEach (around : List Member) (env : Environment) (site : Site) :
    List Declaration → List (List Member)
  | [] => []
  | d :: ds => d.lineages around env site ++
      Declaration.lineagesEach around (d.after env) (site.after (d.fragment env)) ds

/-- A function, and the functions in it. -/
def FunctionTree.lineages (around : List Member) (owner : Option ClassBody) (kind : FunctionKind)
    (env : Environment) : FunctionTree → List (List Member)
  | .mk name parameters body =>
      let member : Member := ⟨⟨env.function kind, some name, parameters, body⟩, owner⟩
      (member :: around) ::
        Declaration.lineagesEach (member :: around) member.body.inside ⟨0, 0⟩ body

/-- The methods of a class, and the functions in them. -/
def FunctionTree.lineagesEach (around : List Member) (c : ClassBody) :
    List FunctionTree → List (List Member)
  | [] => []
  | f :: fs => f.lineages around (some c) (c.inside.names.methodKind f.name) c.inside ++
      FunctionTree.lineagesEach around c fs

end

/-- All functions of a program, each followed by those around it. -/
def Declaration.allLineages (names : ImplicitNames) (ds : List Declaration) : List (List Member) :=
  let script : Member := ⟨Declaration.scriptBody names ds, none⟩
  [script] :: Declaration.lineagesEach [script] (.script names) ⟨0, 0⟩ ds

mutual

theorem Statement.map_lineages (around : List Member) (env : Environment) (site : Site)
    (s : Statement) : (s.lineages around env site).map (·.head?.map Member.body) =
      (s.functions env).map some := by
  cases s with
  | expression value | print value | ret value => rfl
  | ifThen condition body | whileLoop condition body => exact Statement.map_lineages around env _ body
  | ifElse condition body otherwise =>
      rw [Statement.lineages, Statement.functions, List.map_append, List.map_append,
        Statement.map_lineages, Statement.map_lineages]
  | forLoop first condition increment body => exact Statement.map_lineages around _ _ body
  | block inner => exact Declaration.map_lineagesEach around env.enter site inner

theorem Declaration.map_lineages (around : List Member) (env : Environment) (site : Site)
    (d : Declaration) : (d.lineages around env site).map (·.head?.map Member.body) =
      (d.functions env).map some := by
  cases d with
  | classDeclaration name superclass methods => exact FunctionTree.map_lineagesEach around _ methods
  | funDeclaration f => exact FunctionTree.map_lineages around none .function _ f
  | varDeclaration name value => rfl
  | statement s => exact Statement.map_lineages around env site s

theorem Declaration.map_lineagesEach (around : List Member) (env : Environment) (site : Site)
    (ds : List Declaration) :
    (Declaration.lineagesEach around env site ds).map (·.head?.map Member.body) =
      (Declaration.functionsEach env ds).map some := by
  cases ds with
  | nil => rfl
  | cons d ds =>
      rw [Declaration.lineagesEach, Declaration.functionsEach, List.map_append, List.map_append,
        Declaration.map_lineages, Declaration.map_lineagesEach]

theorem FunctionTree.map_lineages (around : List Member) (owner : Option ClassBody)
    (kind : FunctionKind) (env : Environment) (f : FunctionTree) :
    (f.lineages around owner kind env).map (·.head?.map Member.body) =
      (f.functions kind env).map some := by
  cases f with
  | mk name parameters body =>
      rw [FunctionTree.lineages, FunctionTree.functions, List.map_cons, List.map_cons,
        Declaration.map_lineagesEach]
      rfl

theorem FunctionTree.map_lineagesEach (around : List Member) (c : ClassBody)
    (fs : List FunctionTree) :
    (FunctionTree.lineagesEach around c fs).map (·.head?.map Member.body) =
      (FunctionTree.functionsEach c.inside fs).map some := by
  cases fs with
  | nil => rfl
  | cons f fs =>
      rw [FunctionTree.lineagesEach, FunctionTree.functionsEach, List.map_append, List.map_append,
        FunctionTree.map_lineages, FunctionTree.map_lineagesEach]

end

/-- The functions of a program are listed in their order. -/
theorem Declaration.map_allLineages (names : ImplicitNames) (ds : List Declaration) :
    (Declaration.allLineages names ds).map (·.head?.map Member.body) =
      (Declaration.bodies names ds).map some := by
  rw [allLineages, bodies, List.map_cons, List.map_cons, Declaration.map_lineagesEach]
  rfl

/-! ## The order of the functions -/

/-- Lists that grow at the front, in the order of a tree below some list: each is made of a part of
the one before it by putting one item in front. -/
structure Unfolds {α : Type} (around : List α) (xs : List (List α)) : Prop where
  grows : List.IsChain (fun x y => y.tail <:+ x) xs
  inside : ∀ x ∈ xs, around <:+ x
  starts : ∀ x ∈ xs.head?, x.tail = around

namespace Unfolds

variable {α : Type} {around : List α} {xs ys : List (List α)}

theorem nil : Unfolds around [] := ⟨.nil, nofun, nofun⟩

theorem append (hxs : Unfolds around xs) (hys : Unfolds around ys) : Unfolds around (xs ++ ys) where
  grows := List.isChain_append.mpr ⟨hxs.grows, hys.grows, fun x hx y hy => by
    rw [hys.starts y hy]
    exact hxs.inside x (List.mem_of_getLast? hx)⟩
  inside := List.forall_mem_append.mpr ⟨hxs.inside, hys.inside⟩
  starts x hx := by
    cases xs with
    | nil => exact hys.starts x hx
    | cons first xs => exact hxs.starts x hx

/-- The list that all others are below may stand before them. -/
theorem grows_cons (h : Unfolds around xs) : List.IsChain (fun x y => y.tail <:+ x) (around :: xs) :=
  List.isChain_cons.mpr ⟨fun y hy => (h.starts y hy).symm ▸ List.suffix_refl around, h.grows⟩

/-- What is below an item comes right after it. -/
theorem cons {x : α} (h : Unfolds (x :: around) xs) : Unfolds around ((x :: around) :: xs) where
  grows := h.grows_cons
  inside := List.forall_mem_cons.mpr ⟨List.suffix_cons _ _, fun y hy =>
    (List.suffix_cons _ _).trans (h.inside y hy)⟩
  starts y hy := by
    cases hy
    rfl

end Unfolds

mutual

theorem Statement.unfolds (around : List Member) (env : Environment) (site : Site) (s : Statement) :
    Unfolds around (s.lineages around env site) := by
  cases s with
  | expression value | print value | ret value => exact .nil
  | ifThen condition body | whileLoop condition body => exact Statement.unfolds around env _ body
  | ifElse condition body otherwise =>
      exact (Statement.unfolds around env _ body).append (Statement.unfolds around env _ otherwise)
  | forLoop first condition increment body => exact Statement.unfolds around _ _ body
  | block inner => exact Declaration.unfoldsEach around env.enter site inner

theorem Declaration.unfolds (around : List Member) (env : Environment) (site : Site)
    (d : Declaration) : Unfolds around (d.lineages around env site) := by
  cases d with
  | classDeclaration name superclass methods => exact FunctionTree.unfoldsEach around _ methods
  | funDeclaration f => exact FunctionTree.unfolds around none .function _ f
  | varDeclaration name value => exact .nil
  | statement s => exact Statement.unfolds around env site s

theorem Declaration.unfoldsEach (around : List Member) (env : Environment) (site : Site)
    (ds : List Declaration) : Unfolds around (Declaration.lineagesEach around env site ds) := by
  cases ds with
  | nil => exact .nil
  | cons d ds =>
      exact (Declaration.unfolds around env site d).append
        (Declaration.unfoldsEach around (d.after env) _ ds)

theorem FunctionTree.unfolds (around : List Member) (owner : Option ClassBody) (kind : FunctionKind)
    (env : Environment) (f : FunctionTree) : Unfolds around (f.lineages around owner kind env) := by
  cases f with
  | mk name parameters body => exact (Declaration.unfoldsEach _ _ _ body).cons

theorem FunctionTree.unfoldsEach (around : List Member) (c : ClassBody) (fs : List FunctionTree) :
    Unfolds around (FunctionTree.lineagesEach around c fs) := by
  cases fs with
  | nil => exact .nil
  | cons f fs =>
      exact (FunctionTree.unfolds around (some c) _ c.inside f).append
        (FunctionTree.unfoldsEach around c fs)

end

theorem Declaration.unfolds_allLineages (names : ImplicitNames) (ds : List Declaration) :
    Unfolds [] (allLineages names ds) :=
  (Declaration.unfoldsEach _ _ _ ds).cons

/-! ## The locals around a place -/

/-- The names of the language differ from each other, and from what cannot be named. -/
structure ImplicitNames.Distinct (names : ImplicitNames) : Prop where
  this_super : names.this ≠ names.super
  this_anonymous : names.this ≠ .anonymous
  super_anonymous : names.super ≠ .anonymous

namespace Member

/-- The oldest local of a method is its receiver, and no other local has this name. In functions
that are no methods there is none. -/
def Receives (this : Symbol) (m : Member) (locals : List Symbol) : Prop :=
  match m.owner with
  | some _ => ∃ newer, locals = newer ++ [this] ∧ this ∉ newer
  | none => this ∉ locals

/-- The locals around a function, from those of the function directly around it on. The superclass
is among them only around the methods of a class that has one, as the newest local. -/
def StandsAfter (names : ImplicitNames) (m : Member) (locals : List Symbol)
    (outer : List (List Symbol)) : Prop :=
  match m.owner with
  | some c => c.env.names = names ∧ locals = c.inside.locals ∧ outer = c.env.outer ∧
      names.super ∉ c.env.locals
  | none => names.super ∉ locals

/-- Functions inside each other, with the locals around them. -/
def Around (names : ImplicitNames) : List Member → List (List Symbol) → Prop
  | [m], [] => m.owner = none
  | m :: host :: around, locals :: outer => host.Receives names.this locals ∧
      m.StandsAfter names locals outer ∧ Around names (host :: around) outer
  | _, _ => False

variable {names : ImplicitNames} {m : Member} {ms : List Member} {x : Symbol} {locals : List Symbol}
  {outer : List (List Symbol)}

theorem Receives.cons (h : m.Receives names.this locals) (hx : x ≠ names.this) :
    m.Receives names.this (x :: locals) := by
  unfold Receives at h ⊢
  cases howner : m.owner with
  | none =>
      rw [howner] at h
      exact List.not_mem_cons_of_ne_of_not_mem hx.symm h
  | some c =>
      rw [howner] at h
      obtain ⟨newer, rfl, hnewer⟩ := h
      exact ⟨x :: newer, rfl, List.not_mem_cons_of_ne_of_not_mem hx.symm hnewer⟩

theorem Around.length_eq (h : Around names ms outer) : ms.length = outer.length + 1 := by
  induction ms generalizing outer with
  | nil => exact h.elim
  | cons m ms ih =>
      cases ms with
      | nil =>
          cases outer with
          | nil => rfl
          | cons locals outer => exact h.elim
      | cons host around =>
          cases outer with
          | nil => exact h.elim
          | cons locals outer => exact congrArg (· + 1) (ih h.2.2)

end Member

/-- A place stands in some functions inside each other, innermost first. -/
structure Environment.StandsIn (names : ImplicitNames) (env : Environment) (ms : List Member) :
    Prop where
  names_eq : env.names = names
  distinct : names.Distinct
  receives : ∀ m ∈ ms.head?, m.Receives names.this env.locals
  plain : names.super ∉ env.locals
  around : Member.Around names ms env.outer
  /-- The classes around a place are those of the methods around it. -/
  classes : env.classes = ms.filterMap fun m => m.owner.map ClassBody.context

/-- The script is no method. -/
theorem ImplicitNames.Distinct.standsIn_script {names : ImplicitNames} (h : names.Distinct)
    (b : FunctionBody) : (Environment.script names).StandsIn names [⟨b, none⟩] where
  names_eq := rfl
  distinct := h
  receives m hm := by
    cases hm
    exact List.not_mem_cons_of_ne_of_not_mem h.this_anonymous List.not_mem_nil
  plain := List.not_mem_cons_of_ne_of_not_mem h.super_anonymous List.not_mem_nil
  around := rfl
  classes := rfl

namespace Environment.StandsIn

variable {names : ImplicitNames} {env : Environment} {ms : List Member}

/-- There is a function around every place. -/
theorem exists_cons (h : env.StandsIn names ms) : ∃ host around, ms = host :: around := by
  cases ms with
  | nil => exact h.around.elim
  | cons host around => exact ⟨host, around, rfl⟩

/-- A program declares no variables with names of the language. -/
theorem declare (h : env.StandsIn names ms) {x : Symbol} (hx : x ≠ names.this ∧ x ≠ names.super) :
    (env.declare x).StandsIn names ms := by
  cases hscopes : env.scopes with
  | nil =>
      have hsame : env.declare x = env := by
        unfold Environment.declare
        rw [hscopes]
      rwa [hsame]
  | cons scope outer =>
      have hdeclare : env.declare x = { env with scopes := (x :: scope) :: outer } := by
        unfold Environment.declare
        rw [hscopes]
      have hlocals : (env.declare x).locals = x :: env.locals := by
        rw [hdeclare]
        unfold Environment.locals
        rw [hscopes]
        rfl
      constructor
      · rw [hdeclare]
        exact h.names_eq
      · exact h.distinct
      · rw [hlocals]
        exact fun m hm => (h.receives m hm).cons hx.1
      · rw [hlocals]
        exact List.not_mem_cons_of_ne_of_not_mem hx.2.symm h.plain
      · rw [hdeclare]
        exact h.around
      · rw [hdeclare]
        exact h.classes

theorem declareEach (h : env.StandsIn names ms) {xs : List Symbol}
    (hxs : ∀ x ∈ xs, x ≠ names.this ∧ x ≠ names.super) : (env.declareEach xs).StandsIn names ms := by
  induction xs generalizing env with
  | nil => exact h
  | cons x xs ih =>
      obtain ⟨hx, hxs⟩ := List.forall_mem_cons.mp hxs
      exact ih (h.declare hx) hxs

theorem enter (h : env.StandsIn names ms) : env.enter.StandsIn names ms :=
  ⟨h.names_eq, h.distinct, h.receives, h.plain, h.around, h.classes⟩

/-- The beginning of a function that is no method. -/
theorem function (h : env.StandsIn names ms) (b : FunctionBody) :
    (env.function .function).StandsIn names (⟨b, none⟩ :: ms) := by
  obtain ⟨host, around, rfl⟩ := h.exists_cons
  refine ⟨h.names_eq, h.distinct, fun m hm => ?_, ?_, ⟨h.receives host rfl, h.plain, h.around⟩, h.classes⟩
  · cases hm
    exact List.not_mem_cons_of_ne_of_not_mem h.distinct.this_anonymous List.not_mem_nil
  · exact List.not_mem_cons_of_ne_of_not_mem h.distinct.super_anonymous List.not_mem_nil

end Environment.StandsIn

namespace ClassBody

variable {names : ImplicitNames} {ms : List Member} {c : ClassBody}

/-- The superclass is the newest local where the methods of a class stand. -/
theorem locals_inside (hnames : c.env.names = names) : c.inside.locals =
    if c.superclass.isSome then names.super :: c.env.locals else c.env.locals := by
  obtain ⟨env, site, superclass⟩ := c
  obtain rfl := hnames
  cases superclass <;> rfl

/-- The beginning of a method. -/
theorem standsIn_method (h : c.env.StandsIn names ms) (b : FunctionBody) {kind : FunctionKind}
    (hkind : kind = .method ∨ kind = .initializer) :
    (c.inside.function kind).StandsIn names (⟨b, some c⟩ :: ms) := by
  obtain ⟨host, around, rfl⟩ := h.exists_cons
  obtain ⟨hnames, hclasses, houter⟩ : c.inside.names = names ∧
      c.inside.classes = c.context :: c.env.classes ∧ c.inside.outer = c.env.outer := by
    obtain ⟨env, site, superclass⟩ := c
    cases superclass <;> exact ⟨h.names_eq, rfl, rfl⟩
  have hreceiver : (c.inside.function kind).locals = [names.this] := by
    rcases hkind with rfl | rfl <;> exact congrArg (fun n : ImplicitNames => [n.this]) hnames
  refine ⟨hnames, h.distinct, fun m hm => ?_, ?_, ⟨?_, ⟨h.names_eq, rfl, houter, h.plain⟩, ?_⟩, ?_⟩
  · cases hm
    exact ⟨[], hreceiver, List.not_mem_nil⟩
  · rw [hreceiver]
    exact List.not_mem_cons_of_ne_of_not_mem h.distinct.this_super.symm List.not_mem_nil
  · rw [locals_inside h.names_eq]
    split
    · exact (h.receives host rfl).cons h.distinct.this_super.symm
    · exact h.receives host rfl
  · rw [houter]
    exact h.around
  · exact hclasses.trans (congrArg (c.context :: ·) h.classes)

end ClassBody

/-! ## What the names of the language mean -/

theorem slot?_of_notMem {name : Symbol} {locals : List Symbol} (h : name ∉ locals) :
    slot? name locals = none := by
  induction locals with
  | nil => rfl
  | cons x older ih =>
      obtain ⟨hx, holder⟩ := List.ne_and_not_mem_of_not_mem_cons h
      rw [slot?, if_neg (Ne.symm hx), ih holder]

theorem slot?_append {name : Symbol} {newer : List Symbol} (h : name ∉ newer) (older : List Symbol) :
    slot? name (newer ++ name :: older) = some older.length := by
  induction newer with
  | nil => exact if_pos rfl
  | cons x newer ih =>
      obtain ⟨hx, hnewer⟩ := List.ne_and_not_mem_of_not_mem_cons h
      rw [List.cons_append, slot?, if_neg (Ne.symm hx), ih hnewer]

theorem Variable.find?_of_notMem {name : Symbol} {locals : List Symbol} (h : name ∉ locals)
    (outer : List (List Symbol)) : find? name (locals :: outer) = find? name outer := by
  rw [find?, slot?_of_notMem h]

theorem Variable.find?_append {name : Symbol} {newer : List Symbol} (h : name ∉ newer)
    (older : List Symbol) (outer : List (List Symbol)) :
    find? name ((newer ++ name :: older) :: outer) = some ⟨outer.length, older.length⟩ := by
  rw [find?, slot?_append h]

theorem Variable.find?_append_of_notMem {name : Symbol} {inner : List (List Symbol)}
    (h : ∀ locals ∈ inner, name ∉ locals) (functions : List (List Symbol)) :
    find? name (inner ++ functions) = find? name functions := by
  induction inner with
  | nil => rfl
  | cons locals inner ih =>
      obtain ⟨hlocals, hinner⟩ := List.forall_mem_cons.mp h
      rw [List.cons_append, find?_of_notMem hlocals, ih hinner]

namespace Member

variable {names : ImplicitNames} {ms : List Member} {locals : List Symbol}
  {outer : List (List Symbol)}

theorem innermost?_of_owner {m : Member} {c : ClassBody} (h : m.owner = some c) (ms : List Member) :
    innermost? (m :: ms) = some (c, ms) := by
  rw [innermost?, h]

theorem innermost?_of_none {m : Member} (h : m.owner = none) (ms : List Member) :
    innermost? (m :: ms) = innermost? ms := by
  rw [innermost?, h]

/-- The name of the receiver means the oldest local of the innermost method. -/
theorem Around.find?_this (h : Around names ms outer)
    (hreceives : ∀ m ∈ ms.head?, m.Receives names.this locals) :
    Variable.find? names.this (locals :: outer) = (innermost? ms).map fun m => ⟨m.2.length, 0⟩ := by
  induction ms generalizing locals outer with
  | nil => exact h.elim
  | cons m ms ih =>
      have hlength := h.length_eq
      have hm := hreceives m rfl
      unfold Receives at hm
      cases howner : m.owner with
      | some c =>
          rw [howner] at hm
          obtain ⟨newer, rfl, hnewer⟩ := hm
          rw [Variable.find?_append hnewer, innermost?_of_owner howner]
          exact congrArg (fun n => some (⟨n, 0⟩ : Variable)) (Nat.succ.inj hlength).symm
      | none =>
          rw [howner] at hm
          rw [Variable.find?_of_notMem hm, innermost?_of_none howner]
          cases ms with
          | nil =>
              cases outer with
              | nil => rfl
              | cons locals outer => exact h.elim
          | cons host around =>
              cases outer with
              | nil => exact h.elim
              | cons locals outer =>
                  refine ih h.2.2 fun m hm => ?_
                  cases hm
                  exact h.1

/-- If the class of the innermost method has a superclass, the name of the superclass means the local
of this class. -/
theorem Around.find?_super {c : ClassBody} {around : List Member} (h : Around names ms outer)
    (hplain : names.super ∉ locals) (hinnermost : innermost? ms = some (c, around))
    (hc : c.superclass.isSome = true) :
    Variable.find? names.super (locals :: outer) = some ⟨c.env.level, c.env.count⟩ ∧
      around.length = c.env.level + 1 := by
  induction ms generalizing locals outer with
  | nil => exact h.elim
  | cons m ms ih =>
      rw [Variable.find?_of_notMem hplain]
      cases ms with
      | nil =>
          cases outer with
          | nil =>
              rw [innermost?_of_none h] at hinnermost
              cases hinnermost
          | cons locals outer => exact h.elim
      | cons host ms =>
          cases outer with
          | nil => exact h.elim
          | cons locals outer =>
              obtain ⟨-, hafter, hrest⟩ := h
              unfold StandsAfter at hafter
              cases howner : m.owner with
              | some c' =>
                  rw [innermost?_of_owner howner] at hinnermost
                  rw [howner] at hafter
                  cases hinnermost
                  obtain ⟨hnames, rfl, rfl, -⟩ := hafter
                  rw [ClassBody.locals_inside hnames, if_pos hc]
                  exact ⟨Variable.find?_append List.not_mem_nil _ _, hrest.length_eq⟩
              | none =>
                  rw [innermost?_of_none howner] at hinnermost
                  rw [howner] at hafter
                  exact ih hrest hafter hinnermost

/-- The innermost method is the first of the functions that is one. -/
theorem exists_of_innermost? {c : ClassBody} {around : List Member}
    (h : innermost? ms = some (c, around)) : ∃ inner m, ms = inner ++ m :: around ∧
      (∀ m' ∈ inner, m'.owner = none) ∧ m.owner = some c := by
  induction ms with
  | nil => cases h
  | cons m ms ih =>
      cases howner : m.owner with
      | some c' =>
          rw [innermost?_of_owner howner] at h
          cases h
          exact ⟨[], m, rfl, nofun, howner⟩
      | none =>
          rw [innermost?_of_none howner] at h
          obtain ⟨inner, m', rfl, hinner, hm'⟩ := ih h
          exact ⟨m :: inner, m', rfl, List.forall_mem_cons.mpr ⟨howner, hinner⟩, hm'⟩

/-- The innermost class around is that of the innermost method. -/
theorem head?_filterMap_owner (ms : List Member) :
    (ms.filterMap fun m => m.owner.map ClassBody.context).head? =
      (innermost? ms).map (·.1.context) := by
  induction ms with
  | nil => rfl
  | cons m ms ih =>
      cases howner : m.owner with
      | some c =>
          rw [List.filterMap_cons, howner, innermost?_of_owner howner]
          rfl
      | none =>
          rw [List.filterMap_cons, howner, innermost?_of_none howner]
          exact ih

end Member

namespace Environment.StandsIn

variable {names : ImplicitNames} {env : Environment} {ms : List Member}

/-- Inside of a class, the receiver is that of the innermost method. -/
theorem exists_receiver (h : env.StandsIn names ms) (hclasses : env.classes ≠ []) :
    ∃ c around, Member.innermost? ms = some (c, around) ∧
      Variable.find? names.this (env.locals :: env.outer) = some ⟨around.length, 0⟩ := by
  obtain ⟨context, classes, heq⟩ := List.exists_cons_of_ne_nil hclasses
  have hhead := Member.head?_filterMap_owner ms
  rw [← h.classes, heq] at hhead
  obtain ⟨⟨c, around⟩, hinnermost, -⟩ := Option.map_eq_some_iff.mp hhead.symm
  refine ⟨c, around, hinnermost, ?_⟩
  rw [h.around.find?_this h.receives, hinnermost]
  rfl

/-- Inside of a class with a superclass, the superclass is that of the innermost method. -/
theorem exists_superclass (h : env.StandsIn names ms) (hsubclass : env.InSubclass) :
    ∃ c around, Member.innermost? ms = some (c, around) ∧ c.superclass.isSome = true ∧
      around.length = c.env.level + 1 ∧
      Variable.find? names.super (env.locals :: env.outer) = some ⟨c.env.level, c.env.count⟩ := by
  obtain ⟨classes, heq⟩ := hsubclass
  have hhead := Member.head?_filterMap_owner ms
  rw [← h.classes, heq] at hhead
  obtain ⟨⟨c, around⟩, hinnermost, hcontext⟩ := Option.map_eq_some_iff.mp hhead.symm
  have hc : c.superclass.isSome = true := congrArg ClassContext.hasSuperclass hcontext
  obtain ⟨hfind, hlength⟩ := h.around.find?_super h.plain hinnermost hc
  exact ⟨c, around, hinnermost, hc, hlength, hfind⟩

end Environment.StandsIn

end LoxCompiler
