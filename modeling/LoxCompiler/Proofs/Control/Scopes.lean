import LoxCompiler.Proofs.Blueprint.Occurrences
import LoxCompiler.Proofs.Control.Program
import LoxCompiler.Proofs.Control.Sites

/-! # Scopes and their ends

A scope ends with one instruction for each of its locals, newest first. The instruction closes its
local if some closure was made that captures the slot of the local, counted from where the local is
declared, and it pops all other locals. Slots are used again: what captures the slot before that
captures another variable.
-/

namespace LoxCompiler

open Fragment (simple step steps withItem jumpOver counting)

section Trees

open Compile (unaryCode binaryCode)

theorem Literal.shows (value : Literal Symbol) (v : Variable) : value.fragment.Shows v := by
  cases value with
  | nil => exact .simple _
  | boolean value => cases value <;> exact .simple _
  | number value | string value => exact .withItem fun _ => .step rfl

mutual

/-- There are no closures in expressions. -/
theorem Expression.shows (env : Environment) (slot : Nat) (e : Expression) :
    (e.fragment env).Shows ⟨env.level, slot⟩ := by
  cases e with
  | literal value => exact value.shows _
  | «variable» name => exact env.shows_load slot name
  | assign name value =>
      exact env.shows_reach fun place =>
        (Expression.shows env slot value).append (.step (by cases place <;> rfl))
  | receiver => exact env.shows_load slot _
  | superGet method =>
      exact .withItem fun _ =>
        ((env.shows_load slot _).append (env.shows_load slot _)).append (.step rfl)
  | superCall method arguments =>
      exact .withItem fun _ => (((env.shows_load slot _).append
        (Expression.showsEach env slot arguments)).append (env.shows_load slot _)).append (.step rfl)
  | group inner => exact Expression.shows env slot inner
  | unary op operand => exact (Expression.shows env slot operand).append (.simpleEach _)
  | binary op left right =>
      exact ((Expression.shows env slot left).append (Expression.shows env slot right)).append
        (.simpleEach _)
  | and left right =>
      exact (Expression.shows env slot left).append
        ((Fragment.Shows.append (.simple _) (Expression.shows env slot right)).jumpOver _ _)
  | or left right =>
      exact ((Expression.shows env slot left).append (.step rfl)).append
        ((Fragment.Shows.append (.simple _) (Expression.shows env slot right)).jumpOver _ _)
  | call callee arguments =>
      exact ((Expression.shows env slot callee).append
        (Expression.showsEach env slot arguments)).append (.step rfl)
  | get object property =>
      exact (Expression.shows env slot object).append (.withItem fun _ => .step rfl)
  | set object property value =>
      exact (Expression.shows env slot object).append
        (.withItem fun _ => (Expression.shows env slot value).append (.step rfl))
  | invoke object method arguments =>
      exact (Expression.shows env slot object).append
        (.withItem fun _ => (Expression.showsEach env slot arguments).append (.step rfl))

theorem Expression.showsEach (env : Environment) (slot : Nat) (es : List Expression) :
    (Expression.fragmentEach env es).Shows ⟨env.level, slot⟩ := by
  cases es with
  | nil => exact .empty
  | cons e es => exact (Expression.shows env slot e).append (Expression.showsEach env slot es)

end

theorem Expression.shows_initial (env : Environment) (slot : Nat) (value : Option Expression) :
    (Expression.initial env value).Shows ⟨env.level, slot⟩ := by
  cases value with
  | none => exact .simple _
  | some value => exact value.shows env slot

/-- The clauses of a loop are expressions. -/
theorem Expression.shows_of_mem_map (env : Environment) (slot : Nat) (value : Option Expression) :
    ∀ f ∈ value.map (Expression.fragment env), f.Shows ⟨env.level, slot⟩ := by
  intro f hf
  obtain ⟨e, -, rfl⟩ := Option.map_eq_some_iff.mp hf
  exact e.shows env slot

theorem Initializer.shows (env : Environment) (slot : Nat) (first : Initializer) :
    (first.fragment env).Shows ⟨env.level, slot⟩ := by
  cases first with
  | absent => exact .empty
  | «variable» name value => exact env.shows_declaration (Expression.shows_initial env slot value)
  | expression value => exact (value.shows env slot).append (.simple _)

theorem FunctionTree.shows (kind : FunctionKind) (env : Environment) (f : FunctionTree)
    (v : Variable) : (f.fragment kind env).Shows v := by
  cases f with
  | mk name parameters body => exact .closure _ _ _ _

theorem FunctionTree.showsEach (env : Environment) (fs : List FunctionTree) (v : Variable) :
    (FunctionTree.fragmentEach env fs).Shows v := by
  induction fs with
  | nil => exact .empty
  | cons f fs ih =>
      exact (Fragment.Shows.withItem fun _ => (f.shows _ env v).append (.step rfl)).append ih

/-- What the methods of a class stand between, after the superclass was read. -/
def Environment.subclassBody (env : Environment) (name : Symbol)
    (methods : Environment → Fragment) : Fragment :=
  let inside := env.enter.declare env.names.super
  env.enter.reserve ++ inside.load name ++ simple .inherit ++ inside.load name ++
    methods (inside.inClass ⟨true⟩) ++ simple .pop

theorem Environment.shows_subclassBody (env : Environment) (slot : Nat) (name : Symbol)
    {methods : Environment → Fragment} (h : ∀ env v, (methods env).Shows v) :
    (env.subclassBody name methods).Shows ⟨env.level, slot⟩ := by
  have hload := (env.enter.declare env.names.super).shows_load slot name
  rw [Environment.level_declare] at hload
  exact ((((env.enter.shows_reserve.append hload).append (.simple _)).append hload).append
    (h _ _)).append (.simple _)

theorem Environment.shows_classFragment (env : Environment) {slot : Nat} (hslot : slot < env.count)
    (name : Symbol) (superclass : Option Symbol) {methods : Environment → Fragment}
    (h : ∀ env v, (methods env).Shows v) :
    (env.classFragment name superclass methods).Shows ⟨env.level, slot⟩ := by
  cases superclass with
  | none => exact ((env.shows_load slot name).append (h _ _)).append (.simple _)
  | some superclass =>
      exact (env.shows_load slot superclass).append
        ((env.shows_subclassBody slot name h).drop (fun _ => hslot) _)

mutual

/-- A statement has the slots of its own locals after those that are there before it. -/
theorem Statement.shows (env : Environment) {slot : Nat} (hslot : slot < env.count) (s : Statement) :
    (s.fragment env).Shows ⟨env.level, slot⟩ := by
  cases s with
  | expression value | print value => exact (value.shows env slot).append (.simple _)
  | ifThen condition body =>
      exact ((condition.shows env slot).append
        ((Fragment.Shows.append (.simple _) (Statement.shows env hslot body)).jumpOver _ _)).append
          ((Fragment.Shows.simple _).jumpOver _ _)
  | ifElse condition body otherwise =>
      exact ((condition.shows env slot).append
        ((Fragment.Shows.append (.simple _) (Statement.shows env hslot body)).jumpOver _ _)).append
          ((Fragment.Shows.append (.simple _) (Statement.shows env hslot otherwise)).jumpOver _ _)
  | whileLoop condition body =>
      exact (((condition.shows env slot).append ((Fragment.Shows.append (.simple _)
        (Statement.shows env hslot body)).jumpOver _ _)).loop 0).append (.simple _)
  | forLoop first condition increment body =>
      let inside := first.after env.enter
      have hlevel : inside.level = env.level := first.level_after env.enter
      have hcount : slot < inside.count := Nat.lt_of_lt_of_le hslot (first.count_after env.enter)
      have hclause (value : Option Expression) := Expression.shows_of_mem_map inside slot value
      have hbody := Statement.shows inside hcount body
      rw [hlevel] at hclause hbody
      exact ((first.shows env.enter slot).append
        (.counting (hclause condition) (hclause increment) hbody)).drop (fun _ => hslot) _
  | ret value =>
      cases value with
      | none =>
          cases hkind : env.kind <;> simp only [Statement.fragment, hkind] <;>
            exact .steps (by decide)
      | some value => exact (value.shows env slot).append (.simple _)
  | block inner => exact (Declaration.showsEach env.enter hslot inner).drop (fun _ => hslot) _

/-- A declaration may be of one local, whose slot is then there, too. -/
theorem Declaration.shows (env : Environment) (d : Declaration) {slot : Nat}
    (hslot : slot < (d.after env).count) : (d.fragment env).Shows ⟨env.level, slot⟩ := by
  cases d with
  | classDeclaration name superclass methods =>
      have hclass := (env.declare name).shows_classFragment hslot name superclass
        fun env v => FunctionTree.showsEach env methods v
      rw [Environment.level_declare] at hclass
      exact .withItem fun index => ((env.shows_reserve.append (.step rfl)).append
        (env.shows_define index)).append hclass
  | funDeclaration f => exact env.shows_declaration (f.shows _ _ _)
  | varDeclaration name value => exact env.shows_declaration (Expression.shows_initial env slot value)
  | statement s => exact Statement.shows env hslot s

theorem Declaration.showsEach (env : Environment) {slot : Nat} (hslot : slot < env.count)
    (ds : List Declaration) : (Declaration.fragmentEach env ds).Shows ⟨env.level, slot⟩ := by
  cases ds with
  | nil => exact .empty
  | cons d ds =>
      have hafter : slot < (d.after env).count := Nat.lt_of_lt_of_le hslot (d.count_after env)
      have hds := Declaration.showsEach (d.after env) hafter ds
      rw [Declaration.level_after] at hds
      exact (Declaration.shows env d hafter).append hds

end

end Trees

/-! ## The scopes of trees -/

/-- A scope of a function: the slot of its first local, its locals with the offsets where they are
declared, oldest first, and the offset where it ends. -/
structure Scope where
  base : Nat
  locals : List (Symbol × Nat)
  stop : Nat

/-- The local of the first clause of a loop. -/
def Initializer.declared (site : Site) : Initializer → List (Symbol × Nat)
  | .variable name _ => [(name, site.offset)]
  | .absent | .expression _ => []

/-- The local that a declaration in a scope makes. -/
def Declaration.declared (site : Site) : Declaration → List (Symbol × Nat)
  | .classDeclaration name _ _ | .varDeclaration name _ => [(name, site.offset)]
  | .funDeclaration f => [(f.name, site.offset)]
  | .statement _ => []

/-- The locals that some declarations in a scope make. -/
def Declaration.declaredEach (env : Environment) (site : Site) :
    List Declaration → List (Symbol × Nat)
  | [] => []
  | d :: ds => d.declared site ++
      Declaration.declaredEach (d.after env) (site.after (d.fragment env)) ds

/-- The scope of a class with a superclass, which is the only local there. -/
def Environment.classScopes (env : Environment) (site : Site) (name : Symbol)
    (superclass : Option Symbol) (methods : Environment → Fragment) : List Scope :=
  match superclass with
  | none => []
  | some superclass =>
      let start := site.after (env.load superclass)
      [⟨env.count, [(env.names.super, start.offset)],
        (start.after (env.subclassBody name methods)).offset⟩]

mutual

/-- The scopes in a statement, each after those in itself. Those of functions in it are not
counted. -/
def Statement.scopes (env : Environment) (site : Site) : Statement → List Scope
  | .expression _ | .print _ | .ret _ => []
  | .ifThen condition body | .whileLoop condition body =>
      body.scopes env ((site.after (condition.fragment env)).skip 4)
  | .ifElse condition body otherwise =>
      let start := (site.after (condition.fragment env)).skip 4
      body.scopes env start ++ otherwise.scopes env ((start.after (body.fragment env)).skip 4)
  | .forLoop first condition increment body =>
      let inside := first.after env.enter
      let start := site.after (first.fragment env.enter)
      let condition := condition.map (Expression.fragment inside)
      let increment := increment.map (Expression.fragment inside)
      body.scopes inside (start.body condition increment) ++
        [⟨env.count, first.declared site,
          (start.after (counting condition increment (body.fragment inside))).offset⟩]
  | .block inner =>
      Declaration.scopesEach env.enter site inner ++
        [⟨env.count, Declaration.declaredEach env.enter site inner,
          (site.after (Declaration.fragmentEach env.enter inner)).offset⟩]

/-- The scopes in a declaration. -/
def Declaration.scopes (env : Environment) (site : Site) : Declaration → List Scope
  | .classDeclaration name superclass methods =>
      (env.declare name).classScopes (site.after (withItem (.string name) fun index =>
          env.reserve ++ step (.constant .makeClass index) ++ env.define index))
        name superclass fun inside => FunctionTree.fragmentEach inside methods
  | .funDeclaration _ | .varDeclaration _ _ => []
  | .statement s => s.scopes env site

/-- The scopes in some declarations, one after the other. -/
def Declaration.scopesEach (env : Environment) (site : Site) : List Declaration → List Scope
  | [] => []
  | d :: ds => d.scopes env site ++
      Declaration.scopesEach (d.after env) (site.after (d.fragment env)) ds

end

/-- The scopes in a function. That of its parameters has no end. -/
def FunctionBody.scopes (b : FunctionBody) : List Scope :=
  Declaration.scopesEach b.inside ⟨0, 0⟩ b.body

/-! ## The ends of scopes -/

/-- Between two offsets of some code, a closure captures a variable. -/
def Step.ClosesBetween (code : List Step) (v : Variable) (start stop : Nat) : Prop :=
  ∃ o s, (o, s) ∈ labelled 0 code ∧ start ≤ o ∧ o < stop ∧ s.Closes v

/-- A scope in some code of a function at some level ends with one instruction for each of its
locals, newest first. It closes what was captured since it was declared, and pops the rest. -/
def Scope.LeftIn (level : Nat) (code : List Step) (sc : Scope) : Prop :=
  ∀ i name start, sc.locals[i]? = some (name, start) →
    (Step.ClosesBetween code ⟨level, sc.base + i⟩ start sc.stop →
      (sc.stop + (sc.locals.length - 1 - i), .simple .closeUpvalue) ∈ Step.labelled 0 code) ∧
    (¬ Step.ClosesBetween code ⟨level, sc.base + i⟩ start sc.stop →
      (sc.stop + (sc.locals.length - 1 - i), .simple .pop) ∈ Step.labelled 0 code)

/-- The instructions that drop some locals have one cell each. -/
theorem Piece.dropStep_mem_labelled {level base count i : Nat} {uses : List Variable}
    (hi : i < count) (o : Nat) :
    (o + (count - 1 - i), dropStep uses ⟨level, base + i⟩) ∈
      Step.labelled o (dropSteps level base uses count) := by
  induction count generalizing o with
  | zero => exact (Nat.not_lt_zero _ hi).elim
  | succ count ih =>
      rw [dropSteps, Step.labelled]
      rcases Nat.eq_or_lt_of_le (Nat.le_of_lt_succ hi) with rfl | hlt
      · rw [Nat.add_sub_cancel, Nat.sub_self, Nat.add_zero]
        exact List.mem_cons_self
      · have hrest := ih hlt (o + 1)
        rw [show o + 1 + (count - 1 - i) = o + (count + 1 - 1 - i) by omega] at hrest
        exact List.mem_cons_of_mem _ hrest

/-- Code at its place has its own steps at the offsets there. -/
theorem Fragment.Placed.mem_labelled_iff {whole : Piece} {site : Site} {f : Fragment}
    (h : Placed whole site f) {e : Nat × Step} (hstart : site.offset ≤ e.1)
    (hstop : e.1 < (site.after f).offset) :
    e ∈ Step.labelled 0 whole.code ↔ e ∈ Step.labelled site.offset (f site.constants).code := by
  obtain ⟨before, after, hwhole, hsize⟩ := h.code
  rw [hwhole, Step.labelled_append, Step.labelled_append, totalSize_append, Nat.zero_add, hsize,
    List.mem_append, List.mem_append]
  constructor
  · rintro ((hbefore | hin) | hafter)
    · have hlt := (Step.bounds_of_mem_labelled hbefore).2
      omega
    · exact hin
    · have hle := (Step.bounds_of_mem_labelled hafter).1
      have hlt : e.1 < site.offset + totalSize (f site.constants).code := hstop
      omega
  · exact fun hin => .inl (.inr hin)

/-- What the locals of a scope need for its end to be right: each is declared at some place of the
code, the code before does not use it, and the code after shows whether it is captured. -/
theorem Scope.leftIn_of_drop {whole : Piece} {site : Site} {level base : Nat} {f : Fragment}
    {locals : List (Symbol × Nat)}
    (h : Fragment.Placed whole site (f.drop level base locals.length))
    (hlocals : ∀ i name start, locals[i]? = some (name, start) → ∃ g g' : Fragment, f = g ++ g' ∧
      start = (site.after g).offset ∧ (⟨level, base + i⟩ : Variable) ∉ (g site.constants).uses ∧
        g'.Shows ⟨level, base + i⟩) :
    (⟨base, locals, (site.after f).offset⟩ : Scope).LeftIn level whole.code := by
  intro i name start hlocal
  obtain ⟨g, g', rfl, rfl, hold, hshows⟩ := hlocals i name start hlocal
  have hi : i < locals.length := (List.getElem?_eq_some_iff.mp hlocal).1
  have hplaced : Fragment.Placed whole (site.after g) g' := h.ofDrop.right
  have huses : (⟨level, base + i⟩ : Variable) ∈ ((g ++ g') site.constants).uses ↔
      Step.ClosesBetween whole.code ⟨level, base + i⟩ (site.after g).offset
        (site.after (g ++ g')).offset := by
    rw [Fragment.append_apply, Piece.uses_append, List.mem_append, or_iff_right hold,
      site.after_append]
    refine (hshows (site.after g).constants).trans ?_
    constructor
    · rintro ⟨s, hs, hcloses⟩
      obtain ⟨o, ho⟩ := Step.exists_mem_labelled hs (site.after g).offset
      obtain ⟨hstart, hstop⟩ := Step.bounds_of_mem_labelled ho
      exact ⟨o, s, (hplaced.mem_labelled_iff hstart hstop).mpr ho, hstart, hstop, hcloses⟩
    · rintro ⟨o, s, ho, hstart, hstop, hcloses⟩
      exact ⟨s, Step.mem_of_mem_labelled ((hplaced.mem_labelled_iff hstart hstop).mp ho), hcloses⟩
  -- the instructions of the end are the last ones of the code that drops the locals
  have hend : ((site.after (g ++ g')).offset + (locals.length - 1 - i),
      Piece.dropStep ((g ++ g') site.constants).uses ⟨level, base + i⟩) ∈
        Step.labelled 0 whole.code := by
    obtain ⟨before, after, hwhole, hsize⟩ := h.code
    have hdrop : whole.code = (before ++ ((g ++ g') site.constants).code) ++
        Piece.dropSteps level base ((g ++ g') site.constants).uses locals.length ++ after := by
      rw [List.append_assoc before]
      exact hwhole
    rw [hdrop, Step.labelled_append, Step.labelled_append, totalSize_append, Nat.zero_add, hsize]
    exact List.mem_append_left _ (List.mem_append_right _ (Piece.dropStep_mem_labelled hi _))
  unfold Piece.dropStep at hend
  constructor
  · intro hcloses
    rwa [if_pos (huses.mpr hcloses)] at hend
  · intro hcloses
    rwa [if_neg (fun hmem => hcloses (huses.mp hmem))] at hend

/-! ## The scopes of a program -/

namespace Declaration

/-- Declarations in a row, cut at one of them. -/
theorem fragmentEach_append (env : Environment) (ds ds' : List Declaration) :
    fragmentEach env (ds ++ ds') = fragmentEach env ds ++ fragmentEach (afterEach env ds) ds' := by
  induction ds generalizing env with
  | nil => exact (Fragment.empty_append _).symm
  | cons d ds ih =>
      show d.fragment env ++ fragmentEach (d.after env) (ds ++ ds') =
        d.fragment env ++ fragmentEach (d.after env) ds ++ _
      rw [ih, Fragment.append_assoc]
      rfl

/-- In a scope, a declaration makes at most one local, which gets the next slot. -/
theorem count_after_eq {env : Environment} (hscopes : env.scopes ≠ []) (site : Site)
    (d : Declaration) : (d.after env).count = env.count + (d.declared site).length := by
  cases d with
  | classDeclaration name _ _ | varDeclaration name _ =>
      exact env.count_declareEach_eq hscopes [name]
  | funDeclaration f => exact env.count_declareEach_eq hscopes [f.name]
  | statement s => rfl

/-- The local of a declaration is declared where the declaration starts. -/
theorem getElem?_declared {site : Site} {d : Declaration} {i : Nat} {name : Symbol} {start : Nat}
    (h : (d.declared site)[i]? = some (name, start)) :
    i = 0 ∧ start = site.offset ∧ (d.declared site).length = 1 := by
  cases d with
  | classDeclaration _ _ _ | funDeclaration _ | varDeclaration _ _ =>
      cases i with
      | zero =>
          cases h
          exact ⟨rfl, rfl, rfl⟩
      | succ i => cases h
  | statement s => cases h

theorem scopes_after_ne_nil {env : Environment} (hscopes : env.scopes ≠ []) (d : Declaration) :
    (d.after env).scopes ≠ [] := by
  have hdeclare (name : Symbol) : (env.declare name).scopes ≠ [] := by
    obtain ⟨scope, outer, heq⟩ := List.exists_cons_of_ne_nil hscopes
    unfold Environment.declare
    rw [heq]
    exact List.cons_ne_nil _ _
  cases d with
  | classDeclaration name _ _ | funDeclaration _ | varDeclaration name _ => exact hdeclare _
  | statement s => exact hscopes

/-- Where the locals of some declarations in a scope are declared. -/
theorem exists_of_declaredEach {env : Environment} (hscopes : env.scopes ≠ []) {site : Site}
    {ds : List Declaration} {i : Nat} {name : Symbol} {start : Nat}
    (h : (declaredEach env site ds)[i]? = some (name, start)) : ∃ older d newer,
      ds = older ++ d :: newer ∧ start = (site.after (fragmentEach env older)).offset ∧
        (afterEach env older).count = env.count + i ∧
        env.count + i < (d.after (afterEach env older)).count := by
  induction ds generalizing env site i with
  | nil => cases h
  | cons d ds ih =>
      have hcount := count_after_eq hscopes site d
      rw [declaredEach, List.getElem?_append] at h
      split at h
      · rename_i hi
        obtain ⟨rfl, rfl, hlength⟩ := getElem?_declared h
        refine ⟨[], d, ds, rfl, rfl, rfl, ?_⟩
        rw [show afterEach env [] = env from rfl, hcount, hlength]
        exact Nat.lt_succ_self _
      · rename_i hi
        obtain ⟨older, d', newer, rfl, hstart, hcount', hlt⟩ :=
          ih (scopes_after_ne_nil hscopes d) h
        refine ⟨d :: older, d', newer, rfl, ?_, ?_, ?_⟩
        · rw [hstart, ← Site.after_append]
          rfl
        · show (afterEach (d.after env) older).count = _
          omega
        · show _ < (d'.after (afterEach (d.after env) older)).count
          omega

end Declaration

/-- The locals that are there at the end of some declarations in a scope. -/
theorem Declaration.count_afterEach_eq {env : Environment} (hscopes : env.scopes ≠ []) (site : Site)
    (ds : List Declaration) :
    (afterEach env ds).count = env.count + (declaredEach env site ds).length := by
  induction ds generalizing env site with
  | nil => rfl
  | cons d ds ih =>
      rw [declaredEach, List.length_append, ← Nat.add_assoc, ← count_after_eq hscopes site d]
      exact ih (scopes_after_ne_nil hscopes d) (site.after (d.fragment env))

/-- Code uses no local that is not there yet. -/
theorem Environment.WellFormed.not_mem_uses {env : Environment} {f : Fragment} (h : env.WellFormed f)
    {slot : Nat} (hslot : env.count ≤ slot) (n : Nat) : (⟨env.level, slot⟩ : Variable) ∉ (f n).uses := by
  intro hmem
  -- whatever constants there are before the code, it uses the same variables
  have hwell := h (List.replicate n (.string .anonymous))
  rw [Fragment.WellFormed, List.length_replicate] at hwell
  rcases hwell.uses _ hmem with ⟨-, hlt⟩ | hof
  · exact Nat.not_lt.mpr hslot hlt
  · exact Nat.lt_irrefl _ hof.level_lt

section Left

variable {whole : Piece}

/-- The scope of a block is left as it should be. -/
theorem Scope.leftIn_block {env : Environment} {site : Site} {ds : List Declaration}
    (h : Fragment.Placed whole site (env.leave (Declaration.afterEach env.enter ds)
      (Declaration.fragmentEach env.enter ds))) :
    (⟨env.count, Declaration.declaredEach env.enter site ds,
      (site.after (Declaration.fragmentEach env.enter ds)).offset⟩ : Scope).LeftIn env.level
        whole.code := by
  have hscopes : env.enter.scopes ≠ [] := List.cons_ne_nil _ _
  have hcount : (Declaration.afterEach env.enter ds).count - env.count =
      (Declaration.declaredEach env.enter site ds).length := by
    rw [Declaration.count_afterEach_eq hscopes site ds]
    exact Nat.add_sub_cancel_left env.count _
  rw [Environment.leave, hcount] at h
  apply Scope.leftIn_of_drop h
  intro i name start hlocal
  obtain ⟨older, d, newer, rfl, hstart, hthere, hnew⟩ := Declaration.exists_of_declaredEach hscopes hlocal
  have hlevel : (Declaration.afterEach env.enter older).level = env.level :=
    congrArg List.length (Declaration.outer_afterEach env.enter older)
  refine ⟨_, _, Declaration.fragmentEach_append env.enter older (d :: newer), hstart, ?_, ?_⟩
  · have hold := (Declaration.wellFormedEach env.enter older).not_mem_uses
      (Nat.le_of_eq hthere) site.constants
    rwa [hlevel] at hold
  · have hd := d.shows _ hnew
    have hnewer := Declaration.showsEach (d.after (Declaration.afterEach env.enter older)) hnew newer
    rw [Declaration.level_after] at hnewer
    have hboth := hd.append hnewer
    rw [hlevel] at hboth
    exact hboth

/-- The scope of a loop is left as it should be. -/
theorem Scope.leftIn_loop {env : Environment} {site : Site} {first : Initializer} {f : Fragment}
    (hf : ∀ slot < (first.after env.enter).count, f.Shows ⟨env.level, slot⟩)
    (h : Fragment.Placed whole site
      (env.leave (first.after env.enter) (first.fragment env.enter ++ f))) :
    (⟨env.count, first.declared site, ((site.after (first.fragment env.enter)).after f).offset⟩ :
      Scope).LeftIn env.level whole.code := by
  cases first with
  | absent | expression value => exact fun i name start hlocal => nomatch hlocal
  | «variable» name value =>
      have hcount : (env.enter.declare name).count = env.count + 1 :=
        env.enter.count_declareEach_eq (List.cons_ne_nil _ _) [name]
      have hdrop : ((Initializer.variable name value).after env.enter).count - env.count = 1 := by
        rw [show ((Initializer.variable name value).after env.enter).count = _ from hcount]
        exact Nat.add_sub_cancel_left _ 1
      rw [Environment.leave, hdrop] at h
      rw [← Site.after_append]
      apply Scope.leftIn_of_drop h
      intro i name' start hlocal
      cases i with
      | succ i => cases hlocal
      | zero =>
          cases hlocal
          refine ⟨∅, _, (Fragment.empty_append _).symm, rfl, nofun, ?_⟩
          exact ((Initializer.variable name value).shows env.enter env.count).append
            (hf env.count (Nat.lt_of_lt_of_eq (Nat.lt_succ_self _) hcount.symm))

/-- The scope of a class with a superclass is left as it should be. -/
theorem Scope.leftIn_class {env : Environment} {site : Site} {name : Symbol}
    {methods : Environment → Fragment} (hmethods : ∀ env v, (methods env).Shows v)
    (h : Fragment.Placed whole site (env.leave (env.enter.declare env.names.super)
      (env.subclassBody name methods))) :
    (⟨env.count, [(env.names.super, site.offset)],
      (site.after (env.subclassBody name methods)).offset⟩ : Scope).LeftIn env.level whole.code := by
  have hcount : (env.enter.declare env.names.super).count - env.count = 1 := by
    rw [show (env.enter.declare env.names.super).count = env.count + 1 from
      env.enter.count_declareEach_eq (List.cons_ne_nil _ _) [env.names.super]]
    exact Nat.add_sub_cancel_left _ 1
  rw [Environment.leave, hcount] at h
  apply Scope.leftIn_of_drop h
  intro i name' start hlocal
  cases i with
  | succ i => cases hlocal
  | zero =>
      cases hlocal
      exact ⟨∅, _, (Fragment.empty_append _).symm, rfl, nofun, env.shows_subclassBody _ name hmethods⟩

mutual

/-- Every scope in a statement is left as it should be. -/
theorem Statement.leftIn_scopes (env : Environment) {site : Site} (s : Statement)
    (h : Fragment.Placed whole site (s.fragment env)) :
    ∀ sc ∈ s.scopes env site, sc.LeftIn env.level whole.code := by
  cases s with
  | expression value | print value | ret value => exact nofun
  | ifThen condition body => exact Statement.leftIn_scopes env body h.left.right.ofJumpOver.right
  | ifElse condition body otherwise =>
      refine List.forall_mem_append.mpr
        ⟨Statement.leftIn_scopes env body h.left.right.ofJumpOver.right, ?_⟩
      have hotherwise := h.right.ofJumpOver.right
      rw [Site.after_append, Site.after_jumpOver, Site.after_append] at hotherwise
      exact Statement.leftIn_scopes env otherwise hotherwise
  | whileLoop condition body =>
      exact Statement.leftIn_scopes env body h.left.ofLoop.right.ofJumpOver.right
  | forLoop first condition increment body =>
      let inside := first.after env.enter
      have hlevel : inside.level = env.level := first.level_after env.enter
      refine List.forall_mem_append.mpr ⟨?_, List.forall_mem_singleton.mpr (Scope.leftIn_loop ?_ h)⟩
      · have hbody := Statement.leftIn_scopes inside body h.ofDrop.right.ofCounting
        rwa [hlevel] at hbody
      · intro slot hslot
        have hclause (value : Option Expression) := Expression.shows_of_mem_map inside slot value
        have hbody := body.shows inside hslot
        rw [hlevel] at hclause hbody
        exact .counting (hclause condition) (hclause increment) hbody
  | block inner =>
      exact List.forall_mem_append.mpr ⟨Declaration.leftIn_scopesEach env.enter inner h.ofDrop,
        List.forall_mem_singleton.mpr (Scope.leftIn_block h)⟩

theorem Declaration.leftIn_scopes (env : Environment) {site : Site} (d : Declaration)
    (h : Fragment.Placed whole site (d.fragment env)) :
    ∀ sc ∈ d.scopes env site, sc.LeftIn env.level whole.code := by
  cases d with
  | funDeclaration f | varDeclaration name value => exact nofun
  | statement s => exact Statement.leftIn_scopes env s h
  | classDeclaration name superclass methods =>
      cases superclass with
      | none => exact nofun
      | some superclass =>
          have hleave := h.ofItem.right.right
          rw [← Site.after_withItem _ _ fun index => env.reserve ++ step (.constant .makeClass index) ++
            env.define index] at hleave
          rw [← env.level_declare name]
          exact List.forall_mem_singleton.mpr
            (Scope.leftIn_class (fun env v => FunctionTree.showsEach env methods v) hleave)

theorem Declaration.leftIn_scopesEach (env : Environment) {site : Site} (ds : List Declaration)
    (h : Fragment.Placed whole site (Declaration.fragmentEach env ds)) :
    ∀ sc ∈ Declaration.scopesEach env site ds, sc.LeftIn env.level whole.code := by
  cases ds with
  | nil => exact nofun
  | cons d ds =>
      have hds := Declaration.leftIn_scopesEach (d.after env) ds h.right
      rw [Declaration.level_after] at hds
      exact List.forall_mem_append.mpr ⟨Declaration.leftIn_scopes env d h.left, hds⟩

end

end Left

/-- Parameters have no code. -/
theorem Site.after_reserveEach (site : Site) (env : Environment) (names : List Symbol) :
    site.after (env.reserveEach names) = site := by
  induction names generalizing env site with
  | nil => rfl
  | cons name names ih =>
      have hreserve : site.after env.reserve = site := by
        unfold Environment.reserve
        split <;> rfl
      rw [Environment.reserveEach, Site.after_append, hreserve]
      exact ih site (env.declare name)

/-- The body of a function stands at the start of its code. -/
theorem FunctionBody.placed_body (b : FunctionBody) :
    Fragment.Placed (b.fragment 0) ⟨0, 0⟩ (Declaration.fragmentEach b.inside b.body) := by
  have hwhole : Fragment.Placed (b.fragment 0) ⟨0, 0⟩ b.fragment :=
    ⟨⟨[], [], (List.append_nil _).symm, rfl⟩, ⟨[], [], (List.append_nil _).symm, rfl⟩⟩
  have hbody := hwhole.left.right
  rwa [Site.after_reserveEach] at hbody

/-- Every scope in a function is left as it should be. -/
theorem FunctionBody.leftIn_scopes (b : FunctionBody) :
    ∀ sc ∈ b.scopes, sc.LeftIn b.env.level b.plan.code := by
  have hscopes := Declaration.leftIn_scopesEach b.inside b.body b.placed_body
  rwa [show b.inside.level = b.env.level from b.env.level_declareEach b.parameters] at hscopes

end LoxCompiler
