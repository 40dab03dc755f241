import LoxCompiler.Proofs.Control.Members

/-! # The receiver and the superclass

A program has no variables with the names of the language, so only expressions that refer to the
receiver or to the superclass access these names. The static rules allow such expressions inside of
classes, where the names mean what belongs to the innermost one. The local of a superclass is
declared where the superclass was read.
-/

namespace LoxCompiler

open Fragment (simple step withItem)

/-- An access names the receiver or the superclass only where there is one, inside of some
functions. -/
def Occurrence.Fair (names : ImplicitNames) (ms : List Member) : Occurrence → Prop
  | .read env name => (name = names.this → env.StandsIn names ms ∧ env.classes ≠ []) ∧
      (name = names.super → env.StandsIn names ms ∧ env.InSubclass)
  | .write _ name => name ≠ names.this ∧ name ≠ names.super
  | .result => True

namespace ImplicitNames.Spared

variable {names : ImplicitNames} {ts us : List Kind} {kind : Kind} {x : Symbol}

theorem left (h : names.Spared (ts ++ us)) : names.Spared ts := (spared_append.mp h).1

theorem right (h : names.Spared (ts ++ us)) : names.Spared us := (spared_append.mp h).2

theorem tail (h : names.Spared (kind :: ts)) : names.Spared ts := (spared_cons.mp h).2

/-- The name of an identifier is none of the language. -/
theorem of_mem (h : names.Spared ts) (hx : .identifier x ∈ ts) : x ≠ names.this ∧ x ≠ names.super := by
  obtain ⟨hthis, hsuper⟩ := h _ hx
  exact ⟨fun heq => hthis (congrArg _ heq), fun heq => hsuper (congrArg _ heq)⟩

theorem head (h : names.Spared (.identifier x :: ts)) : x ≠ names.this ∧ x ≠ names.super :=
  h.of_mem List.mem_cons_self

end ImplicitNames.Spared

theorem FunctionTree.mem_parameterTokens {x : Symbol} {parameters : List Symbol}
    (h : x ∈ parameters) : .identifier x ∈ parameterTokens parameters := by
  match parameters, h with
  | [y], h =>
      cases List.mem_singleton.mp h
      exact List.mem_singleton_self _
  | y :: z :: rest, h =>
      rcases List.mem_cons.mp h with rfl | h
      · exact List.mem_cons_self
      · exact List.mem_cons_of_mem _ (List.mem_cons_of_mem _ (mem_parameterTokens h))

/-! ## The accesses of a function -/

section Fair

variable {names : ImplicitNames} {ms : List Member}

theorem Occurrence.fair_read {x : Symbol} (hx : x ≠ names.this ∧ x ≠ names.super)
    (env : Environment) : (Occurrence.read env x).Fair names ms :=
  ⟨fun h => (hx.1 h).elim, fun h => (hx.2 h).elim⟩

/-- The receiver may be read inside of a class. -/
theorem Environment.StandsIn.fair_this {env : Environment} (h : env.StandsIn names ms)
    (hclasses : env.classes ≠ []) : (Occurrence.read env env.names.this).Fair names ms := by
  rw [h.names_eq]
  exact ⟨fun _ => ⟨h, hclasses⟩, fun heq => (h.distinct.this_super heq).elim⟩

/-- The superclass may be read inside of a class that has one. -/
theorem Environment.StandsIn.fair_super {env : Environment} (h : env.StandsIn names ms)
    (hsubclass : env.InSubclass) : (Occurrence.read env env.names.super).Fair names ms := by
  rw [h.names_eq]
  exact ⟨fun heq => (h.distinct.this_super heq.symm).elim, fun _ => ⟨h, hsubclass⟩⟩

theorem Environment.InSubclass.classes_ne_nil {env : Environment} (h : env.InSubclass) :
    env.classes ≠ [] := by
  obtain ⟨outer, heq⟩ := h
  rw [heq]
  exact List.cons_ne_nil _ _

section Expressions

variable {env : Environment} {fresh : Option Symbol}

mutual

/-- The accesses of an expression that is spelled without names of the language. -/
theorem Expression.fair (h : env.StandsIn names ms) : ∀ {level : Precedence} {e : Expression}
    {ts : List Kind}, Expression.Spelled level e ts → names.Spared ts → e.Allowed env fresh →
      ∀ o ∈ e.occurrences env, o.Fair names ms
  | _, _, _, .weaken he, hspared, hallowed => Expression.fair h he hspared hallowed
  | _, _, _, .assign he, hspared, hallowed =>
      List.forall_mem_append.mpr ⟨Expression.fair h he hspared.tail.tail hallowed.2,
        List.forall_mem_singleton.mpr hspared.head⟩
  | _, _, _, .set ho he, hspared, hallowed =>
      List.forall_mem_append.mpr ⟨Expression.fair h ho hspared.left hallowed.1,
        Expression.fair h he hspared.right.tail.tail.tail hallowed.2⟩
  | _, _, _, .or hl hr, hspared, hallowed =>
      List.forall_mem_append.mpr ⟨Expression.fair h hl hspared.left hallowed.1,
        Expression.fair h hr hspared.right.tail hallowed.2⟩
  | _, _, _, .and hl hr, hspared, hallowed =>
      List.forall_mem_append.mpr ⟨Expression.fair h hl hspared.left hallowed.1,
        Expression.fair h hr hspared.right.tail hallowed.2⟩
  | _, _, _, .binary _ hl hr, hspared, hallowed =>
      List.forall_mem_append.mpr ⟨Expression.fair h hl hspared.left hallowed.1,
        Expression.fair h hr hspared.right.tail hallowed.2⟩
  | _, .unary _ operand, _, .unary _ he, hspared, hallowed =>
      show ∀ o ∈ operand.occurrences env, _ from Expression.fair h he hspared.tail hallowed
  | _, _, _, .call _ hf hes, hspared, hallowed =>
      List.forall_mem_append.mpr ⟨Expression.fair h hf hspared.left.left hallowed.1,
        Expression.fairEach h hes hspared.left.right.tail hallowed.2⟩
  | _, .get object _, _, .get ho, hspared, hallowed =>
      show ∀ o ∈ object.occurrences env, _ from Expression.fair h ho hspared.left hallowed
  | _, _, _, .invoke ho hes, hspared, hallowed =>
      List.forall_mem_append.mpr ⟨Expression.fair h ho hspared.left.left hallowed.1,
        Expression.fairEach h hes hspared.left.right.tail.tail.tail hallowed.2⟩
  | _, _, _, .superCall hes, hspared, hallowed =>
      List.forall_mem_append.mpr ⟨List.forall_mem_cons.mpr
        ⟨h.fair_this hallowed.1.classes_ne_nil,
          Expression.fairEach h hes hspared.left.tail.tail.tail.tail hallowed.2⟩,
        List.forall_mem_singleton.mpr (h.fair_super hallowed.1)⟩
  | _, _, _, .superGet, _, hallowed =>
      List.forall_mem_cons.mpr ⟨h.fair_this (Environment.InSubclass.classes_ne_nil hallowed),
        List.forall_mem_singleton.mpr (h.fair_super hallowed)⟩
  | _, _, _, .receiver, _, hallowed => List.forall_mem_singleton.mpr (h.fair_this hallowed)
  | _, _, _, .variable, hspared, _ =>
      List.forall_mem_singleton.mpr (Occurrence.fair_read hspared.head env)
  | _, _, _, .literal, _, _ => nofun
  | _, .group inner, _, .group he, hspared, hallowed =>
      show ∀ o ∈ inner.occurrences env, _ from Expression.fair h he hspared.left.tail hallowed

theorem Expression.fairEach (h : env.StandsIn names ms) : ∀ {es : List Expression}
    {ts : List Kind}, Expression.SpelledEach es ts → names.Spared ts →
    Expression.AllowedEach env fresh es →
      ∀ o ∈ Expression.occurrencesEach env es, o.Fair names ms
  | _, _, .none, _, _ => nofun
  | _, _, .last he, hspared, hallowed =>
      List.forall_mem_append.mpr ⟨Expression.fair h he hspared hallowed.1, nofun⟩
  | _, _, .more he hes, hspared, hallowed =>
      List.forall_mem_append.mpr ⟨Expression.fair h he hspared.left hallowed.1,
        Expression.fairEach h hes hspared.right.tail hallowed.2⟩

end

theorem Expression.fair_option (h : env.StandsIn names ms) {e : Option Expression}
    {ts : List Kind} (he : Expression.SpelledOption e ts) (hspared : names.Spared ts)
    (hallowed : Expression.AllowedOption env fresh e) :
    ∀ o ∈ Expression.occurrencesOption env e, o.Fair names ms := by
  cases he with
  | none => exact nofun
  | some he => exact Expression.fair h he hspared hallowed

/-- The accesses of the initial value of a variable, and the place after the variable. -/
theorem Declaration.fair_variable (h : env.StandsIn names ms) {x : Symbol}
    {value : Option Expression} {ts : List Kind}
    (hvalue : Declaration.VariableSpelled x value ts) (hspared : names.Spared ts)
    (hallowed : Declaration.VariableAllowed env x value) :
    (∀ o ∈ Expression.occurrencesOption env value, o.Fair names ms) ∧
      (env.declare x).StandsIn names ms := by
  cases hvalue with
  | bare => exact ⟨nofun, h.declare hspared.head⟩
  | initial he =>
      exact ⟨Expression.fair h he hspared.left.tail.tail hallowed.2, h.declare hspared.left.head⟩

theorem Initializer.fair (h : env.StandsIn names ms) {first : Initializer} {ts : List Kind}
    (hfirst : first.Spelled ts)
    (hspared : names.Spared ts) (hallowed : first.Allowed env) :
    (∀ o ∈ first.occurrences env, o.Fair names ms) ∧ (first.after env).StandsIn names ms := by
  cases hfirst with
  | absent => exact ⟨nofun, h⟩
  | «variable» hvalue => exact Declaration.fair_variable h hvalue hspared.tail hallowed
  | expression he => exact ⟨Expression.fair h he hspared.left hallowed, h⟩

end Expressions

theorem FunctionKind.fair_occurrences (kind : FunctionKind) :
    ∀ o ∈ kind.occurrences, o.Fair names ms := by
  cases kind with
  | initializer => exact List.forall_mem_singleton.mpr trivial
  | function | method | script => exact nofun

theorem Environment.fair_classOccurrences (env : Environment) {x : Symbol} {superclass : Option Symbol}
    (hx : x ≠ names.this ∧ x ≠ names.super)
    (hsuperclass : ∀ y ∈ superclass, y ≠ names.this ∧ y ≠ names.super) :
    ∀ o ∈ env.classOccurrences x superclass, o.Fair names ms := by
  cases superclass with
  | none => exact List.forall_mem_singleton.mpr (Occurrence.fair_read hx _)
  | some y =>
      exact List.forall_mem_cons.mpr ⟨Occurrence.fair_read (hsuperclass y rfl) _,
        List.forall_mem_cons.mpr ⟨Occurrence.fair_read hx _,
          List.forall_mem_singleton.mpr (Occurrence.fair_read hx _)⟩⟩

mutual

/-- The accesses of a statement, without those of the functions in it. -/
theorem Statement.fair : ∀ {s : Statement} {ts : List Kind} {env : Environment}, s.Spelled ts →
    env.StandsIn names ms → names.Spared ts → s.Allowed env → ∀ o ∈ s.occurrences env, o.Fair names ms
  | .expression value, _, env, .expression he, h, hspared, hallowed =>
      show ∀ o ∈ value.occurrences env, _ from Expression.fair h he hspared.left hallowed
  | .print value, _, env, .print he, h, hspared, hallowed =>
      show ∀ o ∈ value.occurrences env, _ from Expression.fair h he hspared.left.tail hallowed
  | _, _, _, .ifThen he hb, h, hspared, hallowed =>
      List.forall_mem_append.mpr ⟨Expression.fair h he hspared.left.tail.tail hallowed.1,
        Statement.fair hb h hspared.right.tail hallowed.2⟩
  | _, _, _, .whileLoop he hb, h, hspared, hallowed =>
      List.forall_mem_append.mpr ⟨Expression.fair h he hspared.left.tail.tail hallowed.1,
        Statement.fair hb h hspared.right.tail hallowed.2⟩
  | _, _, _, .ifElse _ he hb ho, h, hspared, hallowed =>
      List.forall_mem_append.mpr ⟨List.forall_mem_append.mpr
        ⟨Expression.fair h he hspared.left.left.tail.tail hallowed.1,
          Statement.fair hb h hspared.left.right.tail hallowed.2.1⟩,
        Statement.fair ho h hspared.right.tail hallowed.2.2⟩
  | _, _, _, .forLoop hi hc hn hb, h, hspared, hallowed =>
      have hfirst := Initializer.fair h.enter hi hspared.left.left.left.tail.tail hallowed.1
      List.forall_mem_append.mpr ⟨hfirst.1, List.forall_mem_append.mpr
        ⟨Expression.fair_option hfirst.2 hc hspared.left.left.right hallowed.2.1,
          List.forall_mem_append.mpr
            ⟨Expression.fair_option hfirst.2 hn hspared.left.right.tail hallowed.2.2.1,
              Statement.fair hb hfirst.2 hspared.right.tail hallowed.2.2.2⟩⟩⟩
  | .ret none, _, env, .ret .none, _, _, _ => env.kind.fair_occurrences
  | .ret (some value), _, env, .ret (.some he), h, hspared, hallowed =>
      show ∀ o ∈ value.occurrences env, _ from
        Expression.fair h he hspared.left.tail hallowed.2.2
  | .block inner, _, env, .block hds, h, hspared, hallowed =>
      show ∀ o ∈ Declaration.occurrencesEach env.enter inner, _ from
        (Declaration.fairEach hds h.enter hspared.left.tail hallowed).1

/-- The accesses of a declaration, and the place after it. -/
theorem Declaration.fair : ∀ {d : Declaration} {ts : List Kind} {env : Environment}, d.Spelled ts →
    env.StandsIn names ms → names.Spared ts → d.Allowed env →
      (∀ o ∈ d.occurrences env, o.Fair names ms) ∧ (d.after env).StandsIn names ms
  | .classDeclaration x y _, _, env, .classDeclaration _, h, hspared, _ =>
      have hname := hspared.left.left.tail
      have hx := hname.head
      have hy : ∀ z ∈ y, z ≠ names.this ∧ z ≠ names.super := by
        rintro z rfl
        exact hname.tail.tail.head
      ⟨(env.declare x).fair_classOccurrences hx hy, h.declare hx⟩
  | _, _, _, .funDeclaration (.mk _), h, hspared, _ =>
      ⟨nofun, h.declare hspared.tail.left.left.head⟩
  | _, _, _, .varDeclaration hvalue, h, hspared, hallowed =>
      Declaration.fair_variable h hvalue hspared.tail hallowed
  | .statement s, _, env, .statement hs, h, hspared, hallowed =>
      ⟨show ∀ o ∈ s.occurrences env, _ from Statement.fair hs h hspared hallowed, h⟩

/-- The accesses of some declarations in a row, and the place after them. -/
theorem Declaration.fairEach : ∀ {ds : List Declaration} {ts : List Kind} {env : Environment},
    Declaration.SpelledEach ds ts → env.StandsIn names ms → names.Spared ts →
      Declaration.AllowedEach env ds → (∀ o ∈ Declaration.occurrencesEach env ds, o.Fair names ms) ∧
        (Declaration.afterEach env ds).StandsIn names ms
  | _, _, _, .nil, h, _, _ => ⟨nofun, h⟩
  | _, _, _, .cons hd hds, h, hspared, hallowed =>
      have hfirst := Declaration.fair hd h hspared.left hallowed.1
      have hrest := Declaration.fairEach hds hfirst.2 hspared.right hallowed.2
      ⟨List.forall_mem_append.mpr ⟨hfirst.1, hrest.1⟩, hrest.2⟩

end

end Fair

/-! ## Functions and their classes -/

/-- The superclass of a class, if it has one, is read by a function directly before the scope of the
class, in which it is the only local. -/
def ClassBody.DeclaredIn (names : ImplicitNames) (c : ClassBody) (host : Member) : Prop :=
  ∀ superclass ∈ c.superclass,
    Fragment.Placed (host.body.fragment 0) c.site (c.env.load superclass) ∧
      ∃ stop, ⟨c.env.count, [(names.super, (c.site.after (c.env.load superclass)).offset)], stop⟩ ∈
        host.body.scopes

/-- A function stands in those around it, and accesses the receiver and the superclass only where
there is one. The class of a method is declared in the function directly around. -/
structure Member.SoundIn (names : ImplicitNames) (m : Member) (around : List Member) : Prop where
  stands : m.body.env.StandsIn names (m :: around)
  fair : ∀ o ∈ m.body.occurrences, o.Fair names (m :: around)
  declared : ∀ c ∈ m.owner, ∃ host ∈ around.head?, c.DeclaredIn names host

/-- Functions inside each other stand in those around them. -/
def Member.AllSound (names : ImplicitNames) : List Member → Prop
  | [] => True
  | m :: around => m.SoundIn names around ∧ AllSound names around

theorem Member.AllSound.of_suffix {names : ImplicitNames} {ms ms' : List Member}
    (h : AllSound names ms) (hsuffix : ms' <:+ ms) : AllSound names ms' := by
  obtain ⟨inner, rfl⟩ := hsuffix
  induction inner with
  | nil => exact h
  | cons m inner ih => exact ih h.2

/-- A function with the declarations in its body. -/
theorem Member.soundIn_of_body {names : ImplicitNames} {m : Member} {around : List Member}
    {ts : List Kind} (hbody : Declaration.SpelledEach m.body.body ts) (hspared : names.Spared ts)
    (hallowed : Declaration.AllowedEach m.body.inside m.body.body)
    (hstands : m.body.env.StandsIn names (m :: around))
    (hparameters : ∀ x ∈ m.body.parameters, x ≠ names.this ∧ x ≠ names.super)
    (hdeclared : ∀ c ∈ m.owner, ∃ host ∈ around.head?, c.DeclaredIn names host) :
    m.SoundIn names around where
  stands := hstands
  fair := List.forall_mem_append.mpr
    ⟨(Declaration.fairEach hbody (hstands.declareEach hparameters) hspared hallowed).1,
      m.body.env.kind.fair_occurrences⟩
  declared := hdeclared

theorem ImplicitNames.methodKind_eq (names : ImplicitNames) (x : Symbol) :
    names.methodKind x = .method ∨ names.methodKind x = .initializer := by
  unfold methodKind
  split
  · exact .inr rfl
  · exact .inl rfl

/-- A function has some code with some scopes at a place, in an environment of its own. -/
structure Member.Hosts (names : ImplicitNames) (host : Member) (around : List Member)
    (env : Environment) (site : Site) (f : Fragment) (scopes : List Scope) : Prop where
  stands : env.StandsIn names (host :: around)
  sound : AllSound names (host :: around)
  placed : Fragment.Placed (host.body.fragment 0) site f
  scopes : scopes ⊆ host.body.scopes

/-- The body of a function. -/
theorem Member.SoundIn.hosts {names : ImplicitNames} {m : Member} {around : List Member}
    (h : m.SoundIn names around) (hall : AllSound names around)
    (hparameters : ∀ x ∈ m.body.parameters, x ≠ names.this ∧ x ≠ names.super) :
    m.Hosts names around m.body.inside ⟨0, 0⟩ (Declaration.fragmentEach m.body.inside m.body.body)
      m.body.scopes :=
  ⟨h.stands.declareEach hparameters, ⟨h, hall⟩, m.body.placed_body, List.Subset.refl _⟩

section Lineages

variable {names : ImplicitNames} {host : Member} {around : List Member}

/-- The names of the parameters of a function. -/
theorem FunctionTree.spared_parameters {x : Symbol} {parameters : List Symbol} {ts : List Kind}
    (h : names.Spared (.identifier x :: .openParen :: parameterTokens parameters ++
      .closeParen :: .openBrace :: ts ++ [.closeBrace])) :
    ∀ y ∈ parameters, y ≠ names.this ∧ y ≠ names.super :=
  fun _ hy => h.left.left.tail.tail.of_mem (mem_parameterTokens hy)

/-- The superclass of a class is read where the class is declared. -/
theorem Member.Hosts.declaredIn {env : Environment} {site : Site} {x : Symbol}
    {superclass : Option Symbol} {methods : List FunctionTree}
    (h : host.Hosts names around env site
      (Declaration.fragment env (.classDeclaration x superclass methods))
      (Declaration.scopes env site (.classDeclaration x superclass methods))) :
    ClassBody.DeclaredIn names ⟨env.declare x, site.after (withItem (.string x) fun index =>
      env.reserve ++ step (.constant .makeClass index) ++ env.define index), superclass⟩ host := by
  rintro superclass rfl
  have hload := h.placed.ofItem.right.left
  rw [← Site.after_withItem _ _ fun index => env.reserve ++ step (.constant .makeClass index) ++
    env.define index] at hload
  obtain rfl : (env.declare x).names = names := by
    rw [env.declare_eq]
    exact h.stands.names_eq
  exact ⟨hload, _, h.scopes (List.mem_singleton_self _)⟩

mutual

/-- The functions in a statement stand in those around them. -/
theorem Statement.sound_lineages : ∀ {s : Statement} {ts : List Kind} {host : Member}
    {around : List Member} {env : Environment} {site : Site}, s.Spelled ts → names.Spared ts →
    s.Allowed env → host.Hosts names around env site (s.fragment env) (s.scopes env site) →
      ∀ l ∈ s.lineages (host :: around) env site, Member.AllSound names l
  | _, _, _, _, _, _, .expression _, _, _, _ => nofun
  | _, _, _, _, _, _, .print _, _, _, _ => nofun
  | _, _, _, _, _, _, .ret _, _, _, _ => nofun
  | .ifThen _ body, _, host, around, env, _, .ifThen _ hb, hspared, hallowed, h =>
      show ∀ l ∈ body.lineages (host :: around) env _, _ from
        Statement.sound_lineages hb hspared.right.tail hallowed.2
          ⟨h.stands, h.sound, h.placed.left.right.ofJumpOver.right, h.scopes⟩
  | .whileLoop _ body, _, host, around, env, _, .whileLoop _ hb, hspared, hallowed, h =>
      show ∀ l ∈ body.lineages (host :: around) env _, _ from
        Statement.sound_lineages hb hspared.right.tail hallowed.2
          ⟨h.stands, h.sound, h.placed.left.ofLoop.right.ofJumpOver.right, h.scopes⟩
  | _, _, _, _, _, _, .ifElse _ _ hb ho, hspared, hallowed, h => by
      obtain ⟨hbody, hother⟩ := List.append_subset.mp h.scopes
      have hotherwise := h.placed.right.ofJumpOver.right
      rw [Site.after_append, Site.after_jumpOver, Site.after_append] at hotherwise
      exact List.forall_mem_append.mpr
        ⟨Statement.sound_lineages hb hspared.left.right.tail hallowed.2.1
          ⟨h.stands, h.sound, h.placed.left.right.ofJumpOver.right, hbody⟩,
        Statement.sound_lineages ho hspared.right.tail hallowed.2.2
          ⟨h.stands, h.sound, hotherwise, hother⟩⟩
  | .forLoop first _ _ body, _, host, around, env, _, .forLoop hi _ _ hb, hspared, hallowed, h =>
      have hfirst := Initializer.fair h.stands.enter hi hspared.left.left.left.tail.tail hallowed.1
      show ∀ l ∈ body.lineages (host :: around) (first.after env.enter) _, _ from
        Statement.sound_lineages hb hspared.right.tail hallowed.2.2.2
          ⟨hfirst.2, h.sound, h.placed.ofDrop.right.ofCounting, (List.append_subset.mp h.scopes).1⟩
  | .block inner, _, host, around, env, _, .block hds, hspared, hallowed, h =>
      show ∀ l ∈ Declaration.lineagesEach (host :: around) env.enter _ inner, _ from
        Declaration.sound_lineagesEach hds hspared.left.tail hallowed
          ⟨h.stands.enter, h.sound, h.placed.ofDrop, (List.append_subset.mp h.scopes).1⟩

theorem Declaration.sound_lineages : ∀ {d : Declaration} {ts : List Kind} {host : Member}
    {around : List Member} {env : Environment} {site : Site}, d.Spelled ts → names.Spared ts →
    d.Allowed env → host.Hosts names around env site (d.fragment env) (d.scopes env site) →
      ∀ l ∈ d.lineages (host :: around) env site, Member.AllSound names l
  | .classDeclaration _ superclass methods, _, host, around, _, _, .classDeclaration hms, hspared,
      hallowed, h =>
      show ∀ l ∈ FunctionTree.lineagesEach (host :: around) ⟨_, _, superclass⟩ methods, _ from
        FunctionTree.sound_lineagesEach hms hspared.left.right.tail hallowed.2.2
          (h.stands.declare hspared.left.left.tail.head) h.sound h.declaredIn
  | .funDeclaration f, _, host, around, env, _, .funDeclaration hf, hspared, hallowed, h =>
      show ∀ l ∈ f.lineages (host :: around) none .function (env.declare f.name), _ from
        FunctionTree.sound_lineages hf hspared.tail hallowed.2
          (fun hx b => (h.stands.declare hx).function b) h.sound nofun
  | _, _, _, _, _, _, .varDeclaration _, _, _, _ => nofun
  | .statement s, _, host, around, env, site, .statement hs, hspared, hallowed, h =>
      show ∀ l ∈ s.lineages (host :: around) env site, _ from
        Statement.sound_lineages hs hspared hallowed h

theorem Declaration.sound_lineagesEach : ∀ {ds : List Declaration} {ts : List Kind} {host : Member}
    {around : List Member} {env : Environment} {site : Site}, Declaration.SpelledEach ds ts →
    names.Spared ts → Declaration.AllowedEach env ds →
    host.Hosts names around env site (Declaration.fragmentEach env ds)
      (Declaration.scopesEach env site ds) →
        ∀ l ∈ Declaration.lineagesEach (host :: around) env site ds, Member.AllSound names l
  | _, _, _, _, _, _, .nil, _, _, _ => nofun
  | _, _, _, _, _, _, .cons hd hds, hspared, hallowed, h =>
      have hscopes := List.append_subset.mp h.scopes
      have hafter := (Declaration.fair hd h.stands hspared.left hallowed.1).2
      List.forall_mem_append.mpr
        ⟨Declaration.sound_lineages hd hspared.left hallowed.1
          ⟨h.stands, h.sound, h.placed.left, hscopes.1⟩,
        Declaration.sound_lineagesEach hds hspared.right hallowed.2
          ⟨hafter, h.sound, h.placed.right, hscopes.2⟩⟩

/-- A function stands where its name is none of the language. -/
theorem FunctionTree.sound_lineages : ∀ {f : FunctionTree} {ts : List Kind} {host : Member}
    {around : List Member} {owner : Option ClassBody} {kind : FunctionKind} {env : Environment},
    f.Spelled ts → names.Spared ts → f.Allowed kind env →
    (f.name ≠ names.this ∧ f.name ≠ names.super →
      ∀ b, (env.function kind).StandsIn names (⟨b, owner⟩ :: host :: around)) →
    Member.AllSound names (host :: around) → (∀ c ∈ owner, c.DeclaredIn names host) →
      ∀ l ∈ f.lineages (host :: around) owner kind env, Member.AllSound names l
  | .mk x parameters body, _, host, around, owner, kind, env, .mk hds, hspared, hallowed, hstands,
      hall, hdeclared =>
      have hparameters := FunctionTree.spared_parameters hspared
      have hbody := hspared.left.right.tail.tail
      have hsound : Member.SoundIn names ⟨⟨env.function kind, some x, parameters, body⟩, owner⟩
          (host :: around) :=
        Member.soundIn_of_body hds hbody hallowed.2 (hstands hspared.left.left.head _) hparameters
          fun c hc => ⟨host, rfl, hdeclared c hc⟩
      List.forall_mem_cons.mpr ⟨⟨hsound, hall⟩, Declaration.sound_lineagesEach hds hbody hallowed.2
        (hsound.hosts hall hparameters)⟩

theorem FunctionTree.sound_lineagesEach : ∀ {fs : List FunctionTree} {ts : List Kind} {host : Member}
    {around : List Member} {c : ClassBody}, FunctionTree.SpelledEach fs ts → names.Spared ts →
    FunctionTree.AllowedEach c.inside fs → c.env.StandsIn names (host :: around) →
    Member.AllSound names (host :: around) → c.DeclaredIn names host →
      ∀ l ∈ FunctionTree.lineagesEach (host :: around) c fs, Member.AllSound names l
  | _, _, _, _, _, .nil, _, _, _, _, _ => nofun
  | _, _, host, _, c, .cons hf hfs, hspared, hallowed, hstands, hall, hdeclared =>
      have howner : ∀ c' ∈ some c, c'.DeclaredIn names host := by
        intro c' hc'
        cases hc'
        exact hdeclared
      List.forall_mem_append.mpr
        ⟨FunctionTree.sound_lineages hf hspared.left hallowed.1
          (fun _ b => ClassBody.standsIn_method hstands b (c.inside.names.methodKind_eq _)) hall howner,
        FunctionTree.sound_lineagesEach hfs hspared.right hallowed.2 hstands hall hdeclared⟩

end

end Lineages

/-- All functions of a program stand in those around them. -/
theorem Declaration.sound_allLineages {names : ImplicitNames} (hdistinct : names.Distinct)
    {ds : List Declaration} {ts : List Kind} (hds : Declaration.SpelledEach ds ts)
    (hspared : names.Spared ts) (hallowed : Declaration.AllowedEach (.script names) ds) :
    ∀ l ∈ allLineages names ds, Member.AllSound names l := by
  have hscript : Member.SoundIn names ⟨scriptBody names ds, none⟩ [] :=
    Member.soundIn_of_body hds hspared hallowed (hdistinct.standsIn_script _) nofun nofun
  exact List.forall_mem_cons.mpr ⟨⟨hscript, trivial⟩,
    Declaration.sound_lineagesEach hds hspared hallowed (hscript.hosts trivial nofun)⟩

end LoxCompiler
