import LoxCompiler.Proofs.Binding.Agreement

/-! # The code of other names

The code of a program does not depend on how its names are called, as long as they find the same.
-/

namespace LoxCompiler

variable {names : ImplicitNames} {plain : Symbol → Prop} {σ σ' : Symbol → Symbol}

theorem Literal.rename_eq {value : Literal Symbol}
    (h : ∀ r ∈ value.roles, r.Agrees plain σ σ') : value.rename σ' = value.rename σ := by
  cases value with
  | string value => exact congrArg Literal.string (h _ List.mem_cons_self)
  | number _ | boolean _ | nil => rfl

mutual

/-- An expression whose names find the same has the same code. -/
theorem Expression.fragment_rename (hσ : Recalling names plain σ σ') {s : Sight}
    {env : Environment} (hs : s.Shows names plain env) :
    ∀ e : Expression, (∀ r ∈ e.roles s.visible, r.Agrees plain σ σ') →
      (e.rename σ).fragment (env.rename σ) = (e.rename σ').fragment (env.rename σ')
  | .literal value, h => by
      rw [Expression.rename, Expression.rename, Literal.rename_eq h]
      rfl
  | .variable name, h => by
      rw [Expression.rename, Expression.rename, Expression.fragment, Expression.fragment]
      exact hs.reach_eq hσ (h _ List.mem_cons_self) _
  | .assign name value, h => by
      obtain ⟨hname, hvalue⟩ := List.forall_mem_cons.mp h
      rw [Expression.rename, Expression.rename, Expression.fragment, Expression.fragment,
        Expression.fragment_rename hσ hs value hvalue]
      exact hs.reach_eq hσ hname _
  | .receiver, _ => by
      rw [Expression.rename, Expression.rename]
      exact hs.load_this hσ
  | .superGet method, h => by
      have hmethod : σ' method = σ method := h _ List.mem_cons_self
      rw [Expression.rename, Expression.rename, Expression.fragment, Expression.fragment, hmethod,
        hs.load_this hσ, hs.load_super hσ]
  | .superCall method arguments, h => by
      obtain ⟨hmethod, harguments⟩ := List.forall_mem_cons.mp h
      have hmethod : σ' method = σ method := hmethod
      rw [Expression.rename, Expression.rename, Expression.fragment, Expression.fragment, hmethod,
        hs.load_this hσ, hs.load_super hσ, Expression.fragmentEach_rename hσ hs arguments harguments,
        Expression.length_renameEach, Expression.length_renameEach]
  | .group inner, h => by
      rw [Expression.rename, Expression.rename]
      exact Expression.fragment_rename hσ hs inner h
  | .unary op operand, h => by
      rw [Expression.rename, Expression.rename, Expression.fragment, Expression.fragment,
        Expression.fragment_rename hσ hs operand h]
  | .binary op left right, h => by
      obtain ⟨hleft, hright⟩ := List.forall_mem_append.mp h
      rw [Expression.rename, Expression.rename, Expression.fragment, Expression.fragment,
        Expression.fragment_rename hσ hs left hleft, Expression.fragment_rename hσ hs right hright]
  | .and left right, h => by
      obtain ⟨hleft, hright⟩ := List.forall_mem_append.mp h
      rw [Expression.rename, Expression.rename, Expression.fragment, Expression.fragment,
        Expression.fragment_rename hσ hs left hleft, Expression.fragment_rename hσ hs right hright]
  | .or left right, h => by
      obtain ⟨hleft, hright⟩ := List.forall_mem_append.mp h
      rw [Expression.rename, Expression.rename, Expression.fragment, Expression.fragment,
        Expression.fragment_rename hσ hs left hleft, Expression.fragment_rename hσ hs right hright]
  | .call callee arguments, h => by
      obtain ⟨hcallee, harguments⟩ := List.forall_mem_append.mp h
      rw [Expression.rename, Expression.rename, Expression.fragment, Expression.fragment,
        Expression.fragment_rename hσ hs callee hcallee,
        Expression.fragmentEach_rename hσ hs arguments harguments,
        Expression.length_renameEach, Expression.length_renameEach]
  | .get object property, h => by
      obtain ⟨hobject, hproperty⟩ := List.forall_mem_append.mp h
      have hproperty : σ' property = σ property := hproperty _ List.mem_cons_self
      rw [Expression.rename, Expression.rename, Expression.fragment, Expression.fragment,
        Expression.fragment_rename hσ hs object hobject, hproperty]
  | .set object property value, h => by
      obtain ⟨hobject, hrest⟩ := List.forall_mem_append.mp h
      obtain ⟨hproperty, hvalue⟩ := List.forall_mem_cons.mp hrest
      have hproperty : σ' property = σ property := hproperty
      rw [Expression.rename, Expression.rename, Expression.fragment, Expression.fragment,
        Expression.fragment_rename hσ hs object hobject, hproperty,
        Expression.fragment_rename hσ hs value hvalue]
  | .invoke object method arguments, h => by
      obtain ⟨hobject, hrest⟩ := List.forall_mem_append.mp h
      obtain ⟨hmethod, harguments⟩ := List.forall_mem_cons.mp hrest
      have hmethod : σ' method = σ method := hmethod
      rw [Expression.rename, Expression.rename, Expression.fragment, Expression.fragment,
        Expression.fragment_rename hσ hs object hobject, hmethod,
        Expression.fragmentEach_rename hσ hs arguments harguments,
        Expression.length_renameEach, Expression.length_renameEach]

theorem Expression.fragmentEach_rename (hσ : Recalling names plain σ σ') {s : Sight}
    {env : Environment} (hs : s.Shows names plain env) : ∀ es : List Expression,
    (∀ r ∈ Expression.rolesEach s.visible es, r.Agrees plain σ σ') →
      Expression.fragmentEach (env.rename σ) (Expression.renameEach σ es) =
        Expression.fragmentEach (env.rename σ') (Expression.renameEach σ' es)
  | [], _ => by
      rw [Expression.renameEach, Expression.renameEach, Expression.fragmentEach,
        Expression.fragmentEach]
  | e :: es, h => by
      obtain ⟨he, hes⟩ := List.forall_mem_append.mp h
      rw [Expression.renameEach, Expression.renameEach, Expression.fragmentEach,
        Expression.fragmentEach, Expression.fragment_rename hσ hs e he,
        Expression.fragmentEach_rename hσ hs es hes]

end

theorem Expression.initial_rename (hσ : Recalling names plain σ σ') {s : Sight}
    {env : Environment} (hs : s.Shows names plain env)
    (value : Option Expression)
    (h : ∀ r ∈ Expression.rolesOption s.visible value, r.Agrees plain σ σ') :
    Expression.initial (env.rename σ) (value.map (Expression.rename σ)) =
      Expression.initial (env.rename σ') (value.map (Expression.rename σ')) := by
  cases value with
  | none => rfl
  | some value => exact Expression.fragment_rename hσ hs value h

/-- A clause of a loop that may be absent. -/
theorem Expression.map_fragment_rename (hσ : Recalling names plain σ σ') {s : Sight}
    {env : Environment} (hs : s.Shows names plain env)
    (value : Option Expression)
    (h : ∀ r ∈ Expression.rolesOption s.visible value, r.Agrees plain σ σ') :
    (value.map (Expression.rename σ)).map (Expression.fragment (env.rename σ)) =
      (value.map (Expression.rename σ')).map (Expression.fragment (env.rename σ')) := by
  cases value with
  | none => rfl
  | some value => exact congrArg some (Expression.fragment_rename hσ hs value h)

theorem Initializer.fragment_rename (hσ : Recalling names plain σ σ') {s : Sight}
    {env : Environment} (hs : s.Shows names plain env)
    (first : Initializer) (h : ∀ r ∈ first.roles s, r.Agrees plain σ σ') :
    (first.rename σ).fragment (env.rename σ) = (first.rename σ').fragment (env.rename σ') := by
  cases first with
  | absent => rfl
  | «variable» name value =>
      obtain ⟨hname, hvalue⟩ := List.forall_mem_cons.mp h
      exact hs.declaration_eq (Sight.same_of_variable hname)
        (Expression.initial_rename hσ hs value hvalue)
  | expression value =>
      exact congrArg (· ++ Fragment.simple .pop) (Expression.fragment_rename hσ hs value h)

/-- The first clause of a loop declares what can be seen after it. -/
theorem Initializer.shows_seen (hσ : Recalling names plain σ σ') {s : Sight}
    {env : Environment} (hs : s.Shows names plain env)
    (first : Initializer) (h : ∀ r ∈ first.roles s, r.Agrees plain σ σ') :
    (first.seen s).Shows names plain (first.after env) := by
  cases first with
  | absent | expression value => exact hs
  | «variable» name value =>
      exact hs.declare_plain hσ (Sight.plain_of_variable (h _ List.mem_cons_self))

/-- A declaration declares what can be seen after it. -/
theorem Declaration.shows_seen (hσ : Recalling names plain σ σ') {s : Sight}
    {env : Environment} (hs : s.Shows names plain env)
    (d : Declaration) (h : ∀ r ∈ d.roles s, r.Agrees plain σ σ') :
    (d.seen s).Shows names plain (d.after env) := by
  cases d with
  | classDeclaration name superclass methods =>
      exact hs.declare_plain hσ (Sight.plain_of_value (h _ List.mem_cons_self))
  | funDeclaration f =>
      exact hs.declare_plain hσ (Sight.plain_of_value (h _ List.mem_cons_self))
  | varDeclaration name value =>
      exact hs.declare_plain hσ (Sight.plain_of_variable (h _ List.mem_cons_self))
  | statement s => exact hs

/-- A class whose names find the same has the same code, if its methods have. -/
theorem Sight.Shows.classFragment_eq (hσ : Recalling names plain σ σ') {s : Sight}
    {env : Environment} (hs : s.Shows names plain env)
    {name : Symbol} (hname : (Role.use name s.visible).Agrees plain σ σ') {superclass : Option Symbol}
    (hsuperclass : ∀ r ∈ Declaration.superclassRoles s.visible superclass, r.Agrees plain σ σ')
    (methods methods' : Environment → Fragment)
    (hmethods : ∀ (s' : Sight) (env' : Environment), s'.visible = s.visible →
      s'.Shows names plain env' → methods (env'.rename σ) = methods' (env'.rename σ')) :
    (env.rename σ).classFragment (σ name) (superclass.map σ) methods =
      (env.rename σ').classFragment (σ' name) (superclass.map σ') methods' := by
  have hload := hs.reach_eq hσ hname
  cases superclass with
  | none =>
      unfold Environment.classFragment Environment.load
      simp only [Option.map_none, Environment.inClass_rename]
      rw [hload, hmethods s _ rfl (hs.inClass ⟨false⟩)]
  | some superclass =>
      have hinside : s.enter.Shows names plain (env.enter.declare env.names.super) :=
        hs.declare_hidden (hs.implicit ▸ List.mem_cons_of_mem _ List.mem_cons_self)
      have hdeclare (ρ : Symbol → Symbol) : (env.enter.rename ρ).declare (env.rename ρ).names.super =
          (env.enter.declare env.names.super).rename ρ := env.enter.declare_rename ρ _
      unfold Environment.classFragment Environment.load
      simp only [Option.map_some, Environment.enter_rename, hdeclare, Environment.inClass_rename,
        Environment.reserve_rename, Environment.leave_rename]
      rw [hs.reach_eq hσ (hsuperclass _ List.mem_cons_self), hinside.reach_eq hσ hname,
        hmethods s.enter _ rfl (hinside.inClass ⟨true⟩)]

mutual

/-- A statement whose names find the same has the same code. -/
theorem Statement.fragment_rename (hσ : Recalling names plain σ σ') {s : Sight}
    {env : Environment} (hs : s.Shows names plain env) :
    ∀ body : Statement, (∀ r ∈ body.roles s, r.Agrees plain σ σ') →
      (body.rename σ).fragment (env.rename σ) = (body.rename σ').fragment (env.rename σ')
  | .expression value, h | .print value, h => by
      rw [Statement.rename, Statement.rename, Statement.fragment, Statement.fragment,
        Expression.fragment_rename hσ hs value h]
  | .ifThen condition body, h | .whileLoop condition body, h => by
      obtain ⟨hcondition, hbody⟩ := List.forall_mem_append.mp h
      rw [Statement.rename, Statement.rename, Statement.fragment, Statement.fragment,
        Expression.fragment_rename hσ hs condition hcondition,
        Statement.fragment_rename hσ hs body hbody]
  | .ifElse condition body otherwise, h => by
      obtain ⟨hcondition, hrest⟩ := List.forall_mem_append.mp h
      obtain ⟨hbody, hotherwise⟩ := List.forall_mem_append.mp hrest
      rw [Statement.rename, Statement.rename, Statement.fragment, Statement.fragment,
        Expression.fragment_rename hσ hs condition hcondition,
        Statement.fragment_rename hσ hs body hbody, Statement.fragment_rename hσ hs otherwise hotherwise]
  | .forLoop first condition increment body, h => by
      obtain ⟨hfirst, hrest⟩ := List.forall_mem_append.mp h
      obtain ⟨hcondition, hrest⟩ := List.forall_mem_append.mp hrest
      obtain ⟨hincrement, hbody⟩ := List.forall_mem_append.mp hrest
      have hinside := Initializer.shows_seen hσ hs.enter first hfirst
      rw [Statement.rename, Statement.rename, Statement.fragment, Statement.fragment]
      simp only [Environment.enter_rename, Environment.after_rename, Environment.leave_rename]
      rw [Initializer.fragment_rename hσ hs.enter first hfirst,
        Expression.map_fragment_rename hσ hinside condition hcondition,
        Expression.map_fragment_rename hσ hinside increment hincrement,
        Statement.fragment_rename hσ hinside body hbody]
  | .ret none, _ => by
      rw [Statement.rename, Statement.rename]
      rfl
  | .ret (some value), h => by
      rw [Statement.rename, Statement.rename, Option.map_some, Option.map_some, Statement.fragment,
        Statement.fragment, Expression.fragment_rename hσ hs value h]
  | .block inner, h => by
      rw [Statement.rename, Statement.rename, Statement.fragment, Statement.fragment,
        Environment.enter_rename, Environment.enter_rename, Declaration.afterEach_rename,
        Declaration.afterEach_rename, Environment.leave_rename, Environment.leave_rename,
        Declaration.fragmentEach_rename hσ hs.enter inner h]

/-- A declaration whose names find the same has the same code. -/
theorem Declaration.fragment_rename (hσ : Recalling names plain σ σ') {s : Sight}
    {env : Environment} (hs : s.Shows names plain env) :
    ∀ d : Declaration, (∀ r ∈ d.roles s, r.Agrees plain σ σ') →
      (d.rename σ).fragment (env.rename σ) = (d.rename σ').fragment (env.rename σ')
  | .classDeclaration name superclass methods, h => by
      obtain ⟨hname, hrest⟩ := List.forall_mem_cons.mp h
      obtain ⟨hsuperclass, hmethods⟩ := List.forall_mem_append.mp hrest
      have hplain := Sight.plain_of_value hname
      have hsame := Sight.same_of_value hname
      have hclass := (hs.declare_plain hσ hplain).classFragment_eq hσ (hs.use_declared hplain hsame)
        hsuperclass
        (fun inside => FunctionTree.fragmentEach inside (FunctionTree.renameEach σ methods))
        (fun inside => FunctionTree.fragmentEach inside (FunctionTree.renameEach σ' methods))
        fun s' env' hvisible hs' =>
          FunctionTree.fragmentEach_rename hσ hs' methods (hvisible ▸ hmethods)
      rw [Declaration.rename, Declaration.rename, Declaration.fragment, Declaration.fragment]
      simp only [Environment.declare_rename, Environment.reserve_rename, Environment.define_rename]
      rw [hclass, hsame]
  | .funDeclaration f, h => by
      obtain ⟨hname, hf⟩ := List.forall_mem_cons.mp h
      have hsame := Sight.same_of_value hname
      have hinside := hs.declare_plain hσ (Sight.plain_of_value hname)
      rw [Declaration.rename, Declaration.rename, Declaration.fragment, Declaration.fragment,
        FunctionTree.name_rename, FunctionTree.name_rename, Environment.declare_rename,
        Environment.declare_rename]
      exact hs.declaration_eq (fun _ => hsame)
        (FunctionTree.fragment_rename hσ hinside .function f hsame hf)
  | .varDeclaration name value, h => by
      obtain ⟨hname, hvalue⟩ := List.forall_mem_cons.mp h
      rw [Declaration.rename, Declaration.rename]
      exact hs.declaration_eq (Sight.same_of_variable hname)
        (Expression.initial_rename hσ hs value hvalue)
  | .statement body, h => by
      rw [Declaration.rename, Declaration.rename]
      exact Statement.fragment_rename hσ hs body h

theorem Declaration.fragmentEach_rename (hσ : Recalling names plain σ σ') {s : Sight}
    {env : Environment} (hs : s.Shows names plain env) : ∀ ds : List Declaration,
    (∀ r ∈ Declaration.rolesEach s ds, r.Agrees plain σ σ') →
      Declaration.fragmentEach (env.rename σ) (Declaration.renameEach σ ds) =
        Declaration.fragmentEach (env.rename σ') (Declaration.renameEach σ' ds)
  | [], _ => by
      rw [Declaration.renameEach, Declaration.renameEach, Declaration.fragmentEach,
        Declaration.fragmentEach]
  | d :: ds, h => by
      obtain ⟨hd, hds⟩ := List.forall_mem_append.mp h
      rw [Declaration.renameEach, Declaration.renameEach, Declaration.fragmentEach,
        Declaration.fragmentEach, Declaration.after_rename, Declaration.after_rename,
        Declaration.fragment_rename hσ hs d hd,
        Declaration.fragmentEach_rename hσ (Declaration.shows_seen hσ hs d hd) ds hds]

/-- A function whose names find the same has the same code, if it is called the same. -/
theorem FunctionTree.fragment_rename (hσ : Recalling names plain σ σ') {s : Sight}
    {env : Environment} (hs : s.Shows names plain env)
    (kind : FunctionKind) : ∀ f : FunctionTree, σ' f.name = σ f.name →
      (∀ r ∈ f.roles s.visible, r.Agrees plain σ σ') →
      (f.rename σ).fragment kind (env.rename σ) = (f.rename σ').fragment kind (env.rename σ')
  | .mk name parameters body, hname, h => by
      obtain ⟨hparameters, hbody⟩ := List.forall_mem_append.mp h
      have hname : σ' name = σ name := hname
      have hplain : ∀ x ∈ parameters, plain x ∧ x ∉ names.hidden := fun x hx =>
        have hx : plain x := hparameters _ (List.mem_map_of_mem hx)
        ⟨hx, hσ.notMem_hidden hx⟩
      have hinside := (hs.function kind).declareEach hplain rfl
      rw [FunctionTree.rename, FunctionTree.rename, FunctionTree.fragment, FunctionTree.fragment,
        Environment.function_rename _ _ hσ.anonymous, Environment.function_rename _ _ hσ.anonymous']
      simp only [Environment.declareEach_rename, Environment.reserveEach_rename,
        Environment.level_rename, List.length_map]
      rw [Declaration.fragmentEach_rename hσ hinside body hbody, hname]

theorem FunctionTree.fragmentEach_rename (hσ : Recalling names plain σ σ') {s : Sight}
    {env : Environment} (hs : s.Shows names plain env) : ∀ fs : List FunctionTree,
    (∀ r ∈ FunctionTree.rolesEach s.visible fs, r.Agrees plain σ σ') →
      FunctionTree.fragmentEach (env.rename σ) (FunctionTree.renameEach σ fs) =
        FunctionTree.fragmentEach (env.rename σ') (FunctionTree.renameEach σ' fs)
  | [], _ => by
      rw [FunctionTree.renameEach, FunctionTree.renameEach, FunctionTree.fragmentEach,
        FunctionTree.fragmentEach]
  | f :: fs, h => by
      obtain ⟨hname, hrest⟩ := List.forall_mem_cons.mp h
      obtain ⟨hf, hfs⟩ := List.forall_mem_append.mp hrest
      have hname : σ' f.name = σ f.name := hname
      rw [FunctionTree.renameEach, FunctionTree.renameEach, FunctionTree.fragmentEach,
        FunctionTree.fragmentEach, FunctionTree.name_rename, FunctionTree.name_rename,
        hs.methodKind_eq hσ hname,
        FunctionTree.fragment_rename hσ hs _ f hname hf, hname,
        FunctionTree.fragmentEach_rename hσ hs fs hfs]

end

/-- The plan of a program whose names find the same. -/
theorem Declaration.plan_rename (hσ : Recalling names plain σ σ') {ds : List Declaration}
    (h : ∀ r ∈ Declaration.programRoles ds, r.Agrees plain σ σ') :
    plan (names.rename σ') (renameEach σ' ds) = plan (names.rename σ) (renameEach σ ds) := by
  unfold plan
  rw [← Environment.script_rename hσ.anonymous, ← Environment.script_rename hσ.anonymous',
    fragmentEach_rename hσ (Sight.shows_script names plain) ds h]

end LoxCompiler
