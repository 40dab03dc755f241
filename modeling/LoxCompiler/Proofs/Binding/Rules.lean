import LoxCompiler.Proofs.Binding.Code

/-! # The rules of other names

A program that keeps the static rules keeps them under another way to call its names, if they find
the same.
-/

namespace LoxCompiler

variable {names : ImplicitNames} {plain : Symbol → Prop} {σ σ' : Symbol → Symbol}

namespace Sight.Shows

variable {s : Sight} {env : Environment}

/-- A name that is free stays so. -/
theorem free (hs : s.Shows names plain env) (hσ : Recalling names plain σ σ') {x : Symbol}
    (hx : plain x) (h : (env.rename σ).Free (σ x)) : (env.rename σ').Free (σ' x) := by
  unfold Environment.Free Environment.rename at *
  cases hscopes : env.scopes with
  | nil => simp
  | cons scope outer =>
      simp only [hscopes, List.map_cons, List.mem_map, not_exists, not_and] at h ⊢
      intro y hy heq
      by_cases hhidden : y ∈ names.hidden
      · exact hσ.plain_hidden' x y hx hhidden (heq.symm.trans (hσ.hidden y hhidden))
      · have hplain : plain y := hs.visible_plain y (by
          rw [hs.visible]
          simp [Environment.reachable, Environment.locals, hscopes, hy, hhidden])
        exact h y hy (hσ.separate y x hplain hx heq)

theorem freeEach (hs : s.Shows names plain env) (hσ : Recalling names plain σ σ')
    {xs : List Symbol} (hxs : ∀ x ∈ xs, plain x)
    (h : (env.rename σ).FreeEach (xs.map σ)) : (env.rename σ').FreeEach (xs.map σ') := by
  induction xs generalizing s env with
  | nil => trivial
  | cons x xs ih =>
      obtain ⟨hx, hrest⟩ := List.forall_mem_cons.mp hxs
      rw [List.map_cons, Environment.FreeEach, Environment.declare_rename] at h ⊢
      exact ⟨hs.free hσ hx h.1, ih (hs.declare_plain hσ hx) hrest h.2⟩

end Sight.Shows

theorem Environment.fresh_rename (ρ : Symbol → Symbol) (env : Environment) (x : Symbol) :
    (env.rename ρ).fresh (ρ x) = (env.fresh x).map ρ := by
  cases env with
  | mk names kind classes receiver scopes outer => cases scopes <;> rfl

theorem Environment.eq_of_mem_fresh {env : Environment} {x y : Symbol} (h : y ∈ env.fresh x) :
    y = x := by
  unfold fresh at h
  split at h
  · cases h
  · exact (Option.some.inj h).symm

/-- A variable that can be read stays so. -/
theorem Recalling.readable (hσ : Recalling names plain σ σ') {fresh : Option Symbol} {x : Symbol}
    (hfresh : ∀ y ∈ fresh, plain y) (hx : plain x) (h : fresh.map σ ≠ some (σ x)) :
    fresh.map σ' ≠ some (σ' x) := by
  cases fresh with
  | none => exact fun heq => nomatch heq
  | some y =>
      intro heq
      exact h (congrArg some (hσ.separate y x (hfresh y rfl) hx (Option.some.inj heq)))

mutual

/-- An expression whose names find the same keeps the rules. -/
theorem Expression.allowed_rename (hσ : Recalling names plain σ σ') {visible : List Symbol}
    {env : Environment} {fresh : Option Symbol} (hfresh : ∀ y ∈ fresh, plain y) :
    ∀ e : Expression, (∀ r ∈ e.roles visible, r.Agrees plain σ σ') →
      (e.rename σ).Allowed (env.rename σ) (fresh.map σ) →
      (e.rename σ').Allowed (env.rename σ') (fresh.map σ')
  | .literal _, _, _ => by
      rw [Expression.rename, Expression.Allowed]
      trivial
  | .variable name, h, ha => by
      rw [Expression.rename, Expression.Allowed] at ha ⊢
      exact hσ.readable hfresh (h _ List.mem_cons_self).1 ha
  | .assign name value, h, ha => by
      obtain ⟨hname, hvalue⟩ := List.forall_mem_cons.mp h
      rw [Expression.rename, Expression.Allowed] at ha ⊢
      exact ⟨hσ.readable hfresh hname.1 ha.1, Expression.allowed_rename hσ hfresh value hvalue ha.2⟩
  | .receiver, _, ha | .superGet _, _, ha => by
      rw [Expression.rename, Expression.Allowed] at ha ⊢
      exact ha
  | .superCall _ arguments, h, ha => by
      obtain ⟨-, harguments⟩ := List.forall_mem_cons.mp h
      rw [Expression.rename, Expression.Allowed] at ha ⊢
      exact ⟨ha.1, Expression.allowedEach_rename hσ hfresh arguments harguments ha.2⟩
  | .group inner, h, ha | .unary _ inner, h, ha => by
      rw [Expression.rename, Expression.Allowed] at ha ⊢
      exact Expression.allowed_rename hσ hfresh inner h ha
  | .binary _ left right, h, ha | .and left right, h, ha | .or left right, h, ha => by
      obtain ⟨hleft, hright⟩ := List.forall_mem_append.mp h
      rw [Expression.rename, Expression.Allowed] at ha ⊢
      exact ⟨Expression.allowed_rename hσ hfresh left hleft ha.1,
        Expression.allowed_rename hσ hfresh right hright ha.2⟩
  | .call callee arguments, h, ha => by
      obtain ⟨hcallee, harguments⟩ := List.forall_mem_append.mp h
      rw [Expression.rename, Expression.Allowed] at ha ⊢
      exact ⟨Expression.allowed_rename hσ hfresh callee hcallee ha.1,
        Expression.allowedEach_rename hσ hfresh arguments harguments ha.2⟩
  | .get object _, h, ha => by
      obtain ⟨hobject, -⟩ := List.forall_mem_append.mp h
      rw [Expression.rename, Expression.Allowed] at ha ⊢
      exact Expression.allowed_rename hσ hfresh object hobject ha
  | .set object _ value, h, ha => by
      obtain ⟨hobject, hrest⟩ := List.forall_mem_append.mp h
      obtain ⟨-, hvalue⟩ := List.forall_mem_cons.mp hrest
      rw [Expression.rename, Expression.Allowed] at ha ⊢
      exact ⟨Expression.allowed_rename hσ hfresh object hobject ha.1,
        Expression.allowed_rename hσ hfresh value hvalue ha.2⟩
  | .invoke object _ arguments, h, ha => by
      obtain ⟨hobject, hrest⟩ := List.forall_mem_append.mp h
      obtain ⟨-, harguments⟩ := List.forall_mem_cons.mp hrest
      rw [Expression.rename, Expression.Allowed] at ha ⊢
      exact ⟨Expression.allowed_rename hσ hfresh object hobject ha.1,
        Expression.allowedEach_rename hσ hfresh arguments harguments ha.2⟩

theorem Expression.allowedEach_rename (hσ : Recalling names plain σ σ') {visible : List Symbol}
    {env : Environment} {fresh : Option Symbol} (hfresh : ∀ y ∈ fresh, plain y) :
    ∀ es : List Expression, (∀ r ∈ Expression.rolesEach visible es, r.Agrees plain σ σ') →
      Expression.AllowedEach (env.rename σ) (fresh.map σ) (Expression.renameEach σ es) →
      Expression.AllowedEach (env.rename σ') (fresh.map σ') (Expression.renameEach σ' es)
  | [], _, _ => by
      rw [Expression.renameEach, Expression.AllowedEach]
      trivial
  | e :: es, h, ha => by
      obtain ⟨he, hes⟩ := List.forall_mem_append.mp h
      rw [Expression.renameEach, Expression.AllowedEach] at ha ⊢
      exact ⟨Expression.allowed_rename hσ hfresh e he ha.1,
        Expression.allowedEach_rename hσ hfresh es hes ha.2⟩

end

/-- An expression where every variable can be read. -/
theorem Expression.allowed_rename_none (hσ : Recalling names plain σ σ') {visible : List Symbol}
    {env : Environment} (e : Expression) (h : ∀ r ∈ e.roles visible, r.Agrees plain σ σ')
    (ha : (e.rename σ).Allowed (env.rename σ) none) :
    (e.rename σ').Allowed (env.rename σ') none :=
  @Expression.allowed_rename _ _ _ _ hσ _ _ none (fun _ h => nomatch h) e h ha

theorem Expression.allowedOption_rename (hσ : Recalling names plain σ σ') {visible : List Symbol}
    {env : Environment} {fresh : Option Symbol} (hfresh : ∀ y ∈ fresh, plain y)
    (value : Option Expression)
    (h : ∀ r ∈ Expression.rolesOption visible value, r.Agrees plain σ σ')
    (ha : Expression.AllowedOption (env.rename σ) (fresh.map σ) (value.map (Expression.rename σ))) :
    Expression.AllowedOption (env.rename σ') (fresh.map σ') (value.map (Expression.rename σ')) := by
  cases value with
  | none => trivial
  | some value => exact Expression.allowed_rename hσ hfresh value h ha

theorem Declaration.variableAllowed_rename (hσ : Recalling names plain σ σ') {s : Sight}
    {env : Environment} (hs : s.Shows names plain env) {name : Symbol} {value : Option Expression}
    (h : ∀ r ∈ s.variable name :: Expression.rolesOption s.visible value, r.Agrees plain σ σ')
    (ha : Declaration.VariableAllowed (env.rename σ) (σ name) (value.map (Expression.rename σ))) :
    Declaration.VariableAllowed (env.rename σ') (σ' name) (value.map (Expression.rename σ')) := by
  obtain ⟨hname, hvalue⟩ := List.forall_mem_cons.mp h
  have hplain := Sight.plain_of_variable hname
  obtain ⟨hfree, hinitial⟩ := ha
  rw [Environment.fresh_rename] at hinitial
  refine ⟨hs.free hσ hplain hfree, ?_⟩
  rw [Environment.fresh_rename]
  exact Expression.allowedOption_rename hσ
    (fun y hy => Environment.eq_of_mem_fresh hy ▸ hplain) value hvalue hinitial

theorem Initializer.allowed_rename (hσ : Recalling names plain σ σ') {s : Sight}
    {env : Environment} (hs : s.Shows names plain env) (first : Initializer)
    (h : ∀ r ∈ first.roles s, r.Agrees plain σ σ')
    (ha : (first.rename σ).Allowed (env.rename σ)) : (first.rename σ').Allowed (env.rename σ') := by
  cases first with
  | absent => trivial
  | «variable» name value => exact Declaration.variableAllowed_rename hσ hs h ha
  | expression value => exact Expression.allowed_rename_none hσ value h ha

/-- A superclass stays another variable than its class. -/
theorem Recalling.superclass_ne (hσ : Recalling names plain σ σ') {visible : List Symbol}
    {name : Symbol} (hname : plain name) {superclass : Option Symbol}
    (h : ∀ r ∈ Declaration.superclassRoles visible superclass, r.Agrees plain σ σ')
    (hne : superclass.map σ ≠ some (σ name)) : superclass.map σ' ≠ some (σ' name) := by
  cases superclass with
  | none => exact fun heq => nomatch heq
  | some superclass =>
      intro heq
      exact hne (congrArg some (hσ.separate superclass name (h _ List.mem_cons_self).1 hname
        (Option.some.inj heq)))

mutual

/-- A statement whose names find the same keeps the rules. -/
theorem Statement.allowed_rename (hσ : Recalling names plain σ σ') {s : Sight}
    {env : Environment} (hs : s.Shows names plain env) :
    ∀ body : Statement, (∀ r ∈ body.roles s, r.Agrees plain σ σ') →
      (body.rename σ).Allowed (env.rename σ) → (body.rename σ').Allowed (env.rename σ')
  | .expression value, h, ha | .print value, h, ha => by
      rw [Statement.rename, Statement.Allowed] at ha ⊢
      exact Expression.allowed_rename_none hσ value h ha
  | .ifThen condition body, h, ha | .whileLoop condition body, h, ha => by
      obtain ⟨hcondition, hbody⟩ := List.forall_mem_append.mp h
      rw [Statement.rename, Statement.Allowed] at ha ⊢
      exact ⟨Expression.allowed_rename_none hσ condition hcondition ha.1,
        Statement.allowed_rename hσ hs body hbody ha.2⟩
  | .ifElse condition body otherwise, h, ha => by
      obtain ⟨hcondition, hrest⟩ := List.forall_mem_append.mp h
      obtain ⟨hbody, hotherwise⟩ := List.forall_mem_append.mp hrest
      rw [Statement.rename, Statement.Allowed] at ha ⊢
      exact ⟨Expression.allowed_rename_none hσ condition hcondition ha.1,
        Statement.allowed_rename hσ hs body hbody ha.2.1,
        Statement.allowed_rename hσ hs otherwise hotherwise ha.2.2⟩
  | .forLoop first condition increment body, h, ha => by
      obtain ⟨hfirst, hrest⟩ := List.forall_mem_append.mp h
      obtain ⟨hcondition, hrest⟩ := List.forall_mem_append.mp hrest
      obtain ⟨hincrement, hbody⟩ := List.forall_mem_append.mp hrest
      have hinside := Initializer.shows_seen hσ hs.enter first hfirst
      have hnone : ∀ y ∈ (none : Option Symbol), plain y := fun _ h => nomatch h
      rw [Statement.rename, Statement.Allowed] at ha ⊢
      simp only [Environment.enter_rename, Environment.after_rename] at ha ⊢
      exact ⟨Initializer.allowed_rename hσ hs.enter first hfirst ha.1,
        Expression.allowedOption_rename hσ hnone condition hcondition ha.2.1,
        Expression.allowedOption_rename hσ hnone increment hincrement ha.2.2.1,
        Statement.allowed_rename hσ hinside body hbody ha.2.2.2⟩
  | .ret none, _, ha => by
      rw [Statement.rename, Option.map_none, Statement.Allowed] at ha ⊢
      exact ha
  | .ret (some value), h, ha => by
      rw [Statement.rename, Option.map_some, Statement.Allowed] at ha ⊢
      exact ⟨ha.1, ha.2.1, Expression.allowed_rename_none hσ value h ha.2.2⟩
  | .block inner, h, ha => by
      rw [Statement.rename, Statement.Allowed, Environment.enter_rename] at ha ⊢
      exact Declaration.allowedEach_rename hσ hs.enter inner h ha

/-- A declaration whose names find the same keeps the rules. -/
theorem Declaration.allowed_rename (hσ : Recalling names plain σ σ') {s : Sight}
    {env : Environment} (hs : s.Shows names plain env) :
    ∀ d : Declaration, (∀ r ∈ d.roles s, r.Agrees plain σ σ') →
      (d.rename σ).Allowed (env.rename σ) → (d.rename σ').Allowed (env.rename σ')
  | .classDeclaration name superclass methods, h, ha => by
      obtain ⟨hname, hrest⟩ := List.forall_mem_cons.mp h
      obtain ⟨hsuperclass, hmethods⟩ := List.forall_mem_append.mp hrest
      have hplain := Sight.plain_of_value hname
      have hdeclared := hs.declare_plain hσ hplain
      obtain ⟨inside, hvisible, hinside⟩ : ∃ inside : Sight,
          inside.visible = (s.declare name).visible ∧
          inside.Shows names plain ((env.declare name).classBody superclass) := by
        cases superclass with
        | none => exact ⟨_, rfl, hdeclared.inClass _⟩
        | some superclass =>
            have hsuper : (env.declare name).names.super ∈ names.hidden :=
              hdeclared.implicit ▸ List.mem_cons_of_mem _ List.mem_cons_self
            exact ⟨(s.declare name).enter, rfl, (hdeclared.declare_hidden hsuper).inClass ⟨true⟩⟩
      rw [Declaration.rename, Declaration.Allowed, Environment.declare_rename,
        Environment.classBody_rename] at ha ⊢
      exact ⟨hs.free hσ hplain ha.1, hσ.superclass_ne hplain hsuperclass ha.2.1,
        FunctionTree.allowedEach_rename hσ hinside methods (hvisible ▸ hmethods) ha.2.2⟩
  | .funDeclaration f, h, ha => by
      obtain ⟨hname, hf⟩ := List.forall_mem_cons.mp h
      have hplain := Sight.plain_of_value hname
      rw [Declaration.rename, Declaration.Allowed, FunctionTree.name_rename,
        Environment.declare_rename] at ha ⊢
      exact ⟨hs.free hσ hplain ha.1,
        FunctionTree.allowed_rename hσ (hs.declare_plain hσ hplain) .function f hf ha.2⟩
  | .varDeclaration name value, h, ha => by
      rw [Declaration.rename, Declaration.Allowed] at ha ⊢
      exact Declaration.variableAllowed_rename hσ hs h ha
  | .statement body, h, ha => by
      rw [Declaration.rename, Declaration.Allowed] at ha ⊢
      exact Statement.allowed_rename hσ hs body h ha

theorem Declaration.allowedEach_rename (hσ : Recalling names plain σ σ') {s : Sight}
    {env : Environment} (hs : s.Shows names plain env) :
    ∀ ds : List Declaration, (∀ r ∈ Declaration.rolesEach s ds, r.Agrees plain σ σ') →
      Declaration.AllowedEach (env.rename σ) (Declaration.renameEach σ ds) →
      Declaration.AllowedEach (env.rename σ') (Declaration.renameEach σ' ds)
  | [], _, _ => by
      rw [Declaration.renameEach, Declaration.AllowedEach]
      trivial
  | d :: ds, h, ha => by
      obtain ⟨hd, hds⟩ := List.forall_mem_append.mp h
      rw [Declaration.renameEach, Declaration.AllowedEach, Declaration.after_rename] at ha ⊢
      exact ⟨Declaration.allowed_rename hσ hs d hd ha.1,
        Declaration.allowedEach_rename hσ (Declaration.shows_seen hσ hs d hd) ds hds ha.2⟩

/-- A function whose names find the same keeps the rules. -/
theorem FunctionTree.allowed_rename (hσ : Recalling names plain σ σ') {s : Sight}
    {env : Environment} (hs : s.Shows names plain env) (kind : FunctionKind) :
    ∀ f : FunctionTree, (∀ r ∈ f.roles s.visible, r.Agrees plain σ σ') →
      (f.rename σ).Allowed kind (env.rename σ) → (f.rename σ').Allowed kind (env.rename σ')
  | .mk name parameters body, h, ha => by
      obtain ⟨hparameters, hbody⟩ := List.forall_mem_append.mp h
      have hplain : ∀ x ∈ parameters, plain x := fun x hx =>
        hparameters _ (List.mem_map_of_mem hx)
      have hinside := hs.function kind
      have hdeclared := hinside.declareEach
        (fun x hx => ⟨hplain x hx, hσ.notMem_hidden (hplain x hx)⟩) rfl
      rw [FunctionTree.rename, FunctionTree.Allowed] at ha ⊢
      rw [Environment.function_rename _ _ hσ.anonymous, Environment.declareEach_rename] at ha
      rw [Environment.function_rename _ _ hσ.anonymous', Environment.declareEach_rename]
      exact ⟨hinside.freeEach hσ hplain ha.1,
        Declaration.allowedEach_rename hσ hdeclared body hbody ha.2⟩

theorem FunctionTree.allowedEach_rename (hσ : Recalling names plain σ σ') {s : Sight}
    {env : Environment} (hs : s.Shows names plain env) :
    ∀ fs : List FunctionTree, (∀ r ∈ FunctionTree.rolesEach s.visible fs, r.Agrees plain σ σ') →
      FunctionTree.AllowedEach (env.rename σ) (FunctionTree.renameEach σ fs) →
      FunctionTree.AllowedEach (env.rename σ') (FunctionTree.renameEach σ' fs)
  | [], _, _ => by
      rw [FunctionTree.renameEach, FunctionTree.AllowedEach]
      trivial
  | f :: fs, h, ha => by
      obtain ⟨hname, hrest⟩ := List.forall_mem_cons.mp h
      obtain ⟨hf, hfs⟩ := List.forall_mem_append.mp hrest
      rw [FunctionTree.renameEach, FunctionTree.AllowedEach, FunctionTree.name_rename] at ha ⊢
      rw [hs.methodKind_eq hσ hname]
      exact ⟨FunctionTree.allowed_rename hσ hs _ f hf ha.1,
        FunctionTree.allowedEach_rename hσ hs fs hfs ha.2⟩

end

/-- A program whose names find the same keeps the rules. -/
theorem Declaration.allowedEach_script_rename (hσ : Recalling names plain σ σ')
    {ds : List Declaration} (h : ∀ r ∈ Declaration.programRoles ds, r.Agrees plain σ σ')
    (ha : AllowedEach (.script (names.rename σ)) (renameEach σ ds)) :
    AllowedEach (.script (names.rename σ')) (renameEach σ' ds) := by
  rw [← Environment.script_rename hσ.anonymous] at ha
  rw [← Environment.script_rename hσ.anonymous']
  exact allowedEach_rename hσ (Sight.shows_script names plain) ds h ha

end LoxCompiler
