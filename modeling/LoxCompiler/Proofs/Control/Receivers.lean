import LoxCompiler.Proofs.Blueprint.Mentions
import LoxCompiler.Proofs.Control.Members
import LoxCompiler.Proofs.Machine.Resolution

/-! # The first slot of functions

The first slot of a function has a name that no program can declare or assign: the receiver in
methods, and no name at all in other functions and in the script. So what a program names is never
in the first slot of a function, except for the receiver of a method, which is only read.
-/

namespace LoxCompiler

/-- The identifiers among some tokens name neither the receiver nor what has no name. -/
def ImplicitNames.Nameable (names : ImplicitNames) (ts : List Kind) : Prop :=
  ∀ x, .identifier x ∈ ts → x ≠ names.this ∧ x ≠ .anonymous

namespace ImplicitNames.Nameable

variable {names : ImplicitNames} {ts us : List Kind} {kind : Kind} {x : Symbol}

theorem left (h : names.Nameable (ts ++ us)) : names.Nameable ts :=
  fun x hx => h x (List.mem_append_left us hx)

theorem right (h : names.Nameable (ts ++ us)) : names.Nameable us :=
  fun x hx => h x (List.mem_append_right ts hx)

theorem tail (h : names.Nameable (kind :: ts)) : names.Nameable ts :=
  fun x hx => h x (List.mem_cons_of_mem kind hx)

theorem head (h : names.Nameable (.identifier x :: ts)) : x ≠ names.this ∧ x ≠ .anonymous :=
  h x List.mem_cons_self

end ImplicitNames.Nameable

theorem Item.mem_families {p : Plan} {items : List Item} (h : .function p ∈ items) (level : Nat) :
    (level, p) ∈ Item.families level items := by
  obtain ⟨before, after, rfl⟩ := List.append_of_mem h
  rw [Item.families_append, Item.families, Plan.family_eq]
  exact List.mem_append_right _ List.mem_cons_self

/-! ## The oldest locals -/

/-- The oldest local of every function around a place, and of its own one, is the receiver, under the
name that its function has for it. -/
structure Environment.Headed (names : ImplicitNames) (env : Environment) : Prop where
  names_eq : env.names = names
  receiver_eq : env.receiver = env.receiverOf env.kind
  outer : ∀ locals ∈ env.outer, ∃ newer kind, locals = newer ++ [env.receiverOf kind]

namespace Environment.Headed

variable {names : ImplicitNames} {env : Environment}

theorem script (names : ImplicitNames) : (Environment.script names).Headed names := ⟨rfl, rfl, nofun⟩

theorem declare (h : env.Headed names) (x : Symbol) : (env.declare x).Headed names := by
  rw [env.declare_eq]
  exact ⟨h.names_eq, h.receiver_eq, h.outer⟩

theorem declareEach (h : env.Headed names) (xs : List Symbol) :
    (env.declareEach xs).Headed names := by
  rw [Environment.declareEach_eq]
  exact ⟨h.names_eq, h.receiver_eq, h.outer⟩

theorem enter (h : env.Headed names) : env.enter.Headed names :=
  ⟨h.names_eq, h.receiver_eq, h.outer⟩

theorem classBody (h : env.Headed names) (superclass : Option Symbol) :
    (env.classBody superclass).Headed names := by
  cases superclass with
  | none => exact ⟨h.names_eq, h.receiver_eq, h.outer⟩
  | some superclass =>
      have hinside := h.enter.declare env.names.super
      exact ⟨hinside.names_eq, hinside.receiver_eq, hinside.outer⟩

theorem function (h : env.Headed names) (kind : FunctionKind) : (env.function kind).Headed names where
  names_eq := h.names_eq
  receiver_eq := rfl
  outer := List.forall_mem_cons.mpr
    ⟨⟨env.scopes.flatten, env.kind, congrArg (fun x => _ ++ [x]) h.receiver_eq⟩, h.outer⟩

/-- The names of receivers. -/
theorem receiverOf_eq (h : env.Headed names) (kind : FunctionKind) :
    env.receiverOf kind = names.this ∨ env.receiverOf kind = .anonymous := by
  rw [← h.names_eq]
  cases kind with
  | method | initializer => exact .inl rfl
  | function | script => exact .inr rfl

/-- The local in the first slot of a function is its receiver. -/
theorem eq_receiver {newer : List Symbol} {x : Symbol} (h : env.Headed names)
    (hlocals : env.locals = newer ++ [x]) : x = env.receiverOf env.kind := by
  rw [← h.receiver_eq]
  exact (List.singleton_inj.mp (List.append_inj_right' hlocals rfl)).symm

theorem eq_receiver_outer {locals newer : List Symbol} {x : Symbol} (h : env.Headed names)
    (hlocals : locals ∈ env.outer) (heq : locals = newer ++ [x]) :
    x = names.this ∨ x = .anonymous := by
  obtain ⟨newer', kind, rfl⟩ := h.outer locals hlocals
  rw [← List.singleton_inj.mp (List.append_inj_right' heq rfl)]
  exact h.receiverOf_eq kind

end Environment.Headed

/-! ## What programs name -/

/-- An access in a function of some kind names what a program can name, or reads a name of the
language. -/
def Occurrence.Nameable (names : ImplicitNames) (kind : FunctionKind) : Occurrence → Prop
  | .read env x => env.Headed names ∧ env.kind = kind ∧ x ≠ .anonymous
  | .write env x => env.Headed names ∧ x ≠ names.this ∧ x ≠ .anonymous
  | .result => kind = .initializer

/-- A function of a program that the static rules allow. -/
structure FunctionBody.Standing (names : ImplicitNames) (b : FunctionBody) : Prop where
  headed : b.env.Headed names
  spelled : ∃ ts, Declaration.SpelledEach b.body ts ∧ names.Nameable ts
  allowed : Declaration.AllowedEach b.inside b.body

/-- A function is in a function around, whose oldest local is the receiver. -/
def FunctionBody.InsideOf (env : Environment) (b : FunctionBody) : Prop :=
  ∃ inner newer, b.env.outer = inner ++ (newer ++ [env.receiver]) :: env.outer

/-- The accesses and the mentions of variables in a tree at some place, and the functions in it. -/
structure Environment.Names (names : ImplicitNames) (env : Environment) (os : List Occurrence)
    (ms : List Mention) (bs : List FunctionBody) : Prop where
  occurrences : ∀ o ∈ os, o.Nameable names env.kind
  mentions : ∀ m ∈ ms, m.name ≠ .anonymous
  functions : ∀ b ∈ bs, b.Standing names ∧ b.InsideOf env

namespace Environment.Names

variable {names : ImplicitNames} {env : Environment} {os os' : List Occurrence}
  {ms ms' : List Mention} {bs bs' : List FunctionBody} {x : Symbol}

theorem nil : env.Names names [] [] [] := ⟨nofun, nofun, nofun⟩

theorem append (h : env.Names names os ms bs) (h' : env.Names names os' ms' bs') :
    env.Names names (os ++ os') (ms ++ ms') (bs ++ bs') where
  occurrences := List.forall_mem_append.mpr ⟨h.occurrences, h'.occurrences⟩
  mentions := List.forall_mem_append.mpr ⟨h.mentions, h'.mentions⟩
  functions := List.forall_mem_append.mpr ⟨h.functions, h'.functions⟩

theorem read (h : env.Headed names) (hx : x ≠ .anonymous) :
    env.Names names [.read env x] [⟨env, x⟩] [] where
  occurrences := List.forall_mem_singleton.mpr ⟨h, rfl, hx⟩
  mentions := List.forall_mem_singleton.mpr hx
  functions := nofun

theorem this (h : env.Headed names) (hdistinct : names.Distinct) :
    env.Names names [.read env env.names.this] [⟨env, env.names.this⟩] [] :=
  read h (h.names_eq.symm ▸ hdistinct.this_anonymous)

theorem super (h : env.Headed names) (hdistinct : names.Distinct) :
    env.Names names [.read env env.names.super] [⟨env, env.names.super⟩] [] :=
  read h (h.names_eq.symm ▸ hdistinct.super_anonymous)

/-- Declarations do not change the function that a place is in. -/
theorem of_scopes {scopes : List (List Symbol)}
    (h : ({ env with scopes } : Environment).Names names os ms bs) : env.Names names os ms bs :=
  ⟨h.occurrences, h.mentions, h.functions⟩

theorem of_declare (h : (env.declare x).Names names os ms bs) : env.Names names os ms bs := by
  rw [env.declare_eq] at h
  exact h.of_scopes

theorem of_enter (h : env.enter.Names names os ms bs) : env.Names names os ms bs := h.of_scopes

theorem of_declareEach {xs : List Symbol} (h : (env.declareEach xs).Names names os ms bs) :
    env.Names names os ms bs := by
  rw [Environment.declareEach_eq] at h
  exact h.of_scopes

theorem of_classBody {superclass : Option Symbol}
    (h : (env.classBody superclass).Names names os ms bs) : env.Names names os ms bs := by
  cases superclass with
  | none => exact ⟨h.occurrences, h.mentions, h.functions⟩
  | some superclass =>
      have hinside : (env.enter.declare env.names.super).Names names os ms bs :=
        ⟨h.occurrences, h.mentions, h.functions⟩
      exact hinside.of_declare.of_enter

end Environment.Names

section Trees

variable {names : ImplicitNames} {env : Environment}

mutual

/-- What an expression names. -/
theorem Expression.named (hd : names.Distinct) (h : env.Headed names) :
    ∀ {level : Precedence} {e : Expression} {ts : List Kind}, Expression.Spelled level e ts →
      names.Nameable ts → env.Names names (e.occurrences env) (e.mentions env) []
  | _, _, _, .weaken he, hts => Expression.named hd h he hts
  | _, _, _, .assign he, hts =>
      have hvalue := Expression.named hd h he hts.tail.tail
      ⟨List.forall_mem_append.mpr
          ⟨hvalue.occurrences, List.forall_mem_singleton.mpr ⟨h, hts.head⟩⟩,
        List.forall_mem_cons.mpr ⟨hts.head.2, hvalue.mentions⟩, nofun⟩
  | _, _, _, .set ho he, hts =>
      (Expression.named hd h ho hts.left).append
        (Expression.named hd h he hts.right.tail.tail.tail)
  | _, _, _, .or hl hr, hts | _, _, _, .and hl hr, hts | _, _, _, .binary _ hl hr, hts =>
      (Expression.named hd h hl hts.left).append (Expression.named hd h hr hts.right.tail)
  | _, .unary _ operand, _, .unary _ he, hts =>
      show env.Names names (operand.occurrences env) (operand.mentions env) [] from
        Expression.named hd h he hts.tail
  | _, _, _, .call _ hf hes, hts =>
      (Expression.named hd h hf hts.left.left).append
        (Expression.namedEach hd h hes hts.left.right.tail)
  | _, .get object _, _, .get ho, hts =>
      show env.Names names (object.occurrences env) (object.mentions env) [] from
        Expression.named hd h ho hts.left
  | _, _, _, .invoke ho hes, hts =>
      (Expression.named hd h ho hts.left.left).append
        (Expression.namedEach hd h hes hts.left.right.tail.tail.tail)
  | _, _, _, .superCall hes, hts =>
      ((Environment.Names.this h hd).append
        (Expression.namedEach hd h hes hts.left.tail.tail.tail.tail)).append (.super h hd)
  | _, _, _, .superGet, _ => (Environment.Names.this h hd).append (.super h hd)
  | _, _, _, .receiver, _ => .this h hd
  | _, _, _, .variable, hts => .read h hts.head.2
  | _, _, _, .literal, _ => .nil
  | _, .group inner, _, .group he, hts =>
      show env.Names names (inner.occurrences env) (inner.mentions env) [] from
        Expression.named hd h he hts.left.tail

theorem Expression.namedEach (hd : names.Distinct) (h : env.Headed names) :
    ∀ {es : List Expression} {ts : List Kind}, Expression.SpelledEach es ts → names.Nameable ts →
      env.Names names (Expression.occurrencesEach env es) (Expression.mentionsEach env es) []
  | _, _, .none, _ => .nil
  | _, _, .last he, hts => (Expression.named hd h he hts).append .nil
  | _, _, .more he hes, hts =>
      (Expression.named hd h he hts.left).append (Expression.namedEach hd h hes hts.right.tail)

end

theorem Expression.named_option (hd : names.Distinct) (h : env.Headed names)
    {value : Option Expression} {ts : List Kind} (hvalue : Expression.SpelledOption value ts)
    (hts : names.Nameable ts) : env.Names names (Expression.occurrencesOption env value)
      (Expression.mentionsOption env value) [] := by
  cases hvalue with
  | none => exact .nil
  | some he => exact Expression.named hd h he hts

theorem Declaration.named_variable (hd : names.Distinct) (h : env.Headed names) {x : Symbol}
    {value : Option Expression} {ts : List Kind} (hvalue : Declaration.VariableSpelled x value ts)
    (hts : names.Nameable ts) : env.Names names (Expression.occurrencesOption env value)
      (Expression.mentionsOption env value) [] := by
  cases hvalue with
  | bare => exact .nil
  | initial he => exact Expression.named hd h he hts.left.tail.tail

theorem Initializer.named (hd : names.Distinct) (h : env.Headed names) {first : Initializer}
    {ts : List Kind} (hfirst : first.Spelled ts) (hts : names.Nameable ts) :
    env.Names names (first.occurrences env) (first.mentions env) [] := by
  cases hfirst with
  | absent => exact .nil
  | «variable» hvalue => exact Declaration.named_variable hd h hvalue hts.tail
  | expression he => exact Expression.named hd h he hts.left

theorem Initializer.headed_after (h : env.Headed names) (first : Initializer) :
    (first.after env).Headed names := by
  cases first with
  | «variable» name value => exact h.declare name
  | absent | expression value => exact h

theorem Environment.Names.of_initializer {first : Initializer} {os : List Occurrence}
    {ms : List Mention} {bs : List FunctionBody}
    (h : (first.after env.enter).Names names os ms bs) : env.Names names os ms bs := by
  cases first with
  | «variable» name value => exact (Environment.Names.of_declare h).of_enter
  | absent | expression value => exact Environment.Names.of_enter h

theorem Declaration.headed_after (h : env.Headed names) (d : Declaration) :
    (d.after env).Headed names := by
  cases d with
  | classDeclaration name _ _ | funDeclaration _ | varDeclaration name _ => exact h.declare _
  | statement s => exact h

theorem Environment.Names.of_after {d : Declaration} {os : List Occurrence}
    {ms : List Mention} {bs : List FunctionBody} (h : (d.after env).Names names os ms bs) :
    env.Names names os ms bs := by
  cases d with
  | classDeclaration name _ _ | funDeclaration _ | varDeclaration name _ => exact h.of_declare
  | statement s => exact h

/-- A return without a value. -/
theorem FunctionKind.named_occurrences (env : Environment) :
    env.Names names env.kind.occurrences [] [] := by
  refine ⟨?_, nofun, nofun⟩
  cases hkind : env.kind with
  | initializer => exact List.forall_mem_singleton.mpr rfl
  | function | method | script => exact nofun

/-- A class reads itself and its superclass. -/
theorem Environment.named_class (h : env.Headed names) {x : Symbol} {superclass : Option Symbol}
    (hx : x ≠ .anonymous) (hsuperclass : ∀ y ∈ superclass, y ≠ .anonymous) :
    env.Names names (env.classOccurrences x superclass) (env.superclassMentions superclass) [] := by
  cases superclass with
  | none => exact ⟨List.forall_mem_singleton.mpr ⟨h, rfl, hx⟩, nofun, nofun⟩
  | some y =>
      have hinside := h.enter.declare env.names.super
      have hkind : (env.enter.declare env.names.super).kind = env.kind := by
        rw [env.enter.declare_eq]
        rfl
      have hname : (Occurrence.read (env.enter.declare env.names.super) x).Nameable names env.kind :=
        ⟨hinside, hkind, hx⟩
      exact ⟨List.forall_mem_cons.mpr ⟨⟨h, rfl, hsuperclass y rfl⟩,
          List.forall_mem_cons.mpr ⟨hname, List.forall_mem_singleton.mpr hname⟩⟩,
        List.forall_mem_singleton.mpr (hsuperclass y rfl), nofun⟩

/-- A function in a place, with what is in it. -/
theorem Environment.Names.function {kind : FunctionKind} {b : FunctionBody} {os : List Occurrence}
    {ms : List Mention} {bs : List FunctionBody} (henv : b.env = env.function kind)
    (hb : b.Standing names) (h : b.inside.Names names os ms bs) :
    env.Names names [] ms (b :: bs) where
  occurrences := nofun
  mentions := h.mentions
  functions := by
    refine List.forall_mem_cons.mpr ⟨⟨hb, [], env.scopes.flatten, ?_⟩, fun b' hb' => ?_⟩
    · rw [henv]
      rfl
    · obtain ⟨hstanding, inner, newer, houter⟩ := h.functions b' hb'
      refine ⟨hstanding, inner ++ [newer ++ [b.inside.receiver]], env.scopes.flatten, ?_⟩
      rw [houter, List.append_assoc, FunctionBody.inside, Environment.outer_declareEach, henv]
      rfl

mutual

/-- What a statement names. -/
theorem Statement.named (hd : names.Distinct) : ∀ {s : Statement} {ts : List Kind}
    {env : Environment}, s.Spelled ts → env.Headed names → names.Nameable ts → s.Allowed env →
      env.Names names (s.occurrences env) (s.mentions env) (s.functions env)
  | .expression value, _, env, .expression he, h, hts, _ =>
      show env.Names names (value.occurrences env) (value.mentions env) [] from
        Expression.named hd h he hts.left
  | .print value, _, env, .print he, h, hts, _ =>
      show env.Names names (value.occurrences env) (value.mentions env) [] from
        Expression.named hd h he hts.left.tail
  | _, _, _, .ifThen he hb, h, hts, hallowed | _, _, _, .whileLoop he hb, h, hts, hallowed =>
      (Expression.named hd h he hts.left.tail.tail).append
        (Statement.named hd hb h hts.right.tail hallowed.2)
  | _, _, _, .ifElse _ he hb ho, h, hts, hallowed =>
      ((Expression.named hd h he hts.left.left.tail.tail).append
        (Statement.named hd hb h hts.left.right.tail hallowed.2.1)).append
          (Statement.named hd ho h hts.right.tail hallowed.2.2)
  | .forLoop first _ _ _, _, _, .forLoop hi hc hn hb, h, hts, hallowed =>
      have hinside := first.headed_after h.enter
      (Environment.Names.of_enter
          (Initializer.named hd h.enter hi hts.left.left.left.tail.tail)).append
        ((Environment.Names.of_initializer
            (Expression.named_option hd hinside hc hts.left.left.right)).append
          ((Environment.Names.of_initializer
              (Expression.named_option hd hinside hn hts.left.right.tail)).append
            (Environment.Names.of_initializer
              (Statement.named hd hb hinside hts.right.tail hallowed.2.2.2))))
  | .ret none, _, env, .ret .none, _, _, _ => FunctionKind.named_occurrences env
  | .ret (some value), _, env, .ret (.some he), h, hts, _ =>
      show env.Names names (value.occurrences env) (value.mentions env) [] from
        Expression.named hd h he hts.left.tail
  | .block _, _, _, .block hds, h, hts, hallowed =>
      Environment.Names.of_enter (Declaration.namedEach hd hds h.enter hts.left.tail hallowed)

/-- What a declaration names. -/
theorem Declaration.named (hd : names.Distinct) : ∀ {d : Declaration} {ts : List Kind}
    {env : Environment}, d.Spelled ts → env.Headed names → names.Nameable ts → d.Allowed env →
      env.Names names (d.occurrences env) (d.mentions env) (d.functions env)
  | .classDeclaration _ y _, _, _, .classDeclaration hms, h, hts, hallowed =>
      have hname := hts.left.left.tail
      have hy : ∀ z ∈ y, z ≠ .anonymous := by
        rintro z rfl
        exact hname.tail.tail.head.2
      have hinside := (h.declare _).classBody y
      have hall := (Environment.named_class (h.declare _) hname.head.2 hy).append
        (Environment.Names.of_classBody
          (FunctionTree.namedEach hd hms hinside hts.left.right.tail hallowed.2.2))
      ⟨fun o ho => hall.of_declare.occurrences o (List.mem_append_left [] ho),
        hall.of_declare.mentions, hall.of_declare.functions⟩
  | .funDeclaration _, _, _, .funDeclaration hf, h, hts, hallowed =>
      (FunctionTree.named hd .function hf (h.declare _) hts.tail hallowed.2).of_declare
  | _, _, _, .varDeclaration hvalue, h, hts, _ => Declaration.named_variable hd h hvalue hts.tail
  | .statement s, _, env, .statement hs, h, hts, hallowed =>
      show env.Names names (s.occurrences env) (s.mentions env) (s.functions env) from
        Statement.named hd hs h hts hallowed

/-- What some declarations in a row name. -/
theorem Declaration.namedEach (hd : names.Distinct) : ∀ {ds : List Declaration} {ts : List Kind}
    {env : Environment}, Declaration.SpelledEach ds ts → env.Headed names → names.Nameable ts →
      Declaration.AllowedEach env ds → env.Names names (Declaration.occurrencesEach env ds)
        (Declaration.mentionsEach env ds) (Declaration.functionsEach env ds)
  | _, _, _, .nil, _, _, _ => .nil
  | d :: _, _, _, .cons h hs, henv, hts, hallowed =>
      (Declaration.named hd h henv hts.left hallowed.1).append
        (Environment.Names.of_after
          (Declaration.namedEach hd hs (d.headed_after henv) hts.right hallowed.2))

/-- What a function names, and the functions in it. -/
theorem FunctionTree.named (hd : names.Distinct) (kind : FunctionKind) : ∀ {f : FunctionTree}
    {ts : List Kind} {env : Environment}, f.Spelled ts → env.Headed names → names.Nameable ts →
      f.Allowed kind env → env.Names names [] (f.mentions kind env) (f.functions kind env)
  | .mk x parameters body, _, env, .mk hds, h, hts, hallowed =>
      have hbody := hts.left.right.tail.tail
      have hstanding : FunctionBody.Standing names ⟨env.function kind, some x, parameters, body⟩ :=
        ⟨h.function kind, ⟨_, hds, hbody⟩, hallowed.2⟩
      Environment.Names.function rfl hstanding (Declaration.namedEach hd hds
        ((h.function kind).declareEach parameters) hbody hallowed.2)

theorem FunctionTree.namedEach (hd : names.Distinct) : ∀ {fs : List FunctionTree} {ts : List Kind}
    {env : Environment}, FunctionTree.SpelledEach fs ts → env.Headed names → names.Nameable ts →
      FunctionTree.AllowedEach env fs → env.Names names [] (FunctionTree.mentionsEach env fs)
        (FunctionTree.functionsEach env fs)
  | _, _, _, .nil, _, _, _ => .nil
  | _, _, _, .cons hf hfs, h, hts, hallowed =>
      (FunctionTree.named hd _ hf h hts.left hallowed.1).append
        (FunctionTree.namedEach hd hfs h hts.right hallowed.2)

end

end Trees

/-! ## Functions -/

/-- What means the first slot of a function has the name of its oldest local. -/
theorem Mention.name_eq_of_first {m : Mention} {newer : List Symbol} {x : Symbol}
    {outer : List (List Symbol)} (hmeant : m.meant? = some ⟨outer.length, 0⟩)
    (hsuffix : (newer ++ [x]) :: outer <:+ m.env.locals :: m.env.outer) : m.name = x := by
  obtain ⟨inner, newer', older, outer', hfunctions, -, -, hv⟩ := Variable.find?_eq_some hmeant
  obtain ⟨hlevel, hslot⟩ := Variable.mk.inj hv
  obtain rfl : older = [] := List.length_eq_zero_iff.mp hslot.symm
  have hlength : ((newer ++ [x]) :: outer).length = ((newer' ++ [m.name]) :: outer').length :=
    congrArg (· + 1) hlevel
  rw [hfunctions] at hsuffix
  have hsame := List.suffix_of_suffix_length_le hsuffix (List.suffix_append inner _)
    (Nat.le_of_eq hlength)
  obtain ⟨hlocals, -⟩ := List.cons.inj (hsame.eq_of_length hlength)
  exact (List.singleton_inj.mp (List.append_inj_right' hlocals rfl)).symm

namespace FunctionBody.Standing

variable {names : ImplicitNames} {b : FunctionBody}

theorem named (h : b.Standing names) (hd : names.Distinct) :
    b.env.Names names b.occurrences b.mentions (Declaration.functionsEach b.inside b.body) := by
  obtain ⟨ts, hds, hts⟩ := h.spelled
  have hbody := (Declaration.namedEach hd hds (h.headed.declareEach b.parameters) hts
    h.allowed).of_declareEach
  have hall := hbody.append (FunctionKind.named_occurrences b.env)
  rw [List.append_nil, List.append_nil] at hall
  exact hall

/-- What a function has as a constant is a function directly inside. -/
theorem exists_constant (h : b.Standing names) (hd : names.Distinct) {p : Plan} {index : Nat}
    (hp : b.plan.constants[index]? = some (.function p)) :
    ∃ b' : FunctionBody, b'.plan = p ∧ b'.Standing names ∧ b'.env.Rooted ∧
      ∃ newer, b'.env.outer = (newer ++ [b.env.receiver]) :: b.env.outer := by
  have hlevel : b.inside.level = b.env.level := b.env.level_declareEach b.parameters
  have hplans := ((Declaration.plansEach b.inside b.body).after
    (Environment.noFunctions_reserveEach b.env b.parameters)).before
      (Fragment.noFunctions_steps b.env.kind.returnSteps)
  have hfamily := Item.mem_families (List.mem_of_getElem? hp) (b.inside.level + 1)
  rw [show Item.families (b.inside.level + 1) b.plan.constants = _ from hplans 0] at hfamily
  obtain ⟨b', hb', heq⟩ := List.mem_map.mp hfamily
  obtain ⟨hlevel', rfl⟩ := Prod.mk.inj heq
  obtain ⟨hstanding, inner, newer, houter⟩ := (h.named hd).functions b' hb'
  have hlength := congrArg List.length houter
  rw [List.length_append, List.length_cons] at hlength
  change b'.env.level = inner.length + (b.env.level + 1) at hlength
  obtain rfl : inner = [] := List.length_eq_zero_iff.mp (by omega)
  exact ⟨b', rfl, hstanding, Declaration.rooted_functionsEach _ _ b' hb', newer, houter⟩

/-- In a function that is no method, no closure captures the first slot. -/
theorem not_captured (h : b.Standing names) (hd : names.Distinct)
    (hkind : b.env.receiverOf b.env.kind = .anonymous) {index : Nat} {vs : List Variable}
    (hs : Step.closure index vs ∈ b.plan.code) : ⟨b.env.level, 0⟩ ∉ vs := by
  have hrefers : (Step.closure index vs).Refers b.plan.constants := b.wellFormed.refers _ hs
  obtain ⟨p, hp, rfl⟩ := hrefers
  obtain ⟨b', rfl, hstanding, hrooted, newer, houter⟩ := h.exists_constant hd hp
  rw [b'.captures_eq hrooted, mem_captureAll]
  rintro ⟨hmem, -⟩
  obtain ⟨m, hm, hmeant⟩ := List.mem_filterMap.mp hmem
  have hsuffix := (b'.allInside m hm).trans (List.suffix_cons m.env.locals _)
  rw [houter] at hsuffix
  have hname := Mention.name_eq_of_first hmeant hsuffix
  rw [h.headed.receiver_eq, hkind] at hname
  exact (hstanding.named hd).mentions m hm hname

end FunctionBody.Standing

/-- All functions of a program. -/
theorem Declaration.standing_bodies {names : ImplicitNames} (hd : names.Distinct)
    {ds : List Declaration} {ts : List Kind} (hds : Declaration.SpelledEach ds ts)
    (hts : names.Nameable ts) (hallowed : Declaration.AllowedEach (.script names) ds) :
    ∀ b ∈ Declaration.bodies names ds, b.Standing names := by
  have hscript := Environment.Headed.script names
  exact List.forall_mem_cons.mpr ⟨⟨hscript, ⟨ts, hds, hts⟩, hallowed⟩,
    fun b hb => ((Declaration.namedEach hd hds hscript hts hallowed).functions b hb).1⟩

/-! ## The kinds of functions -/

/-- The kind of a function tells whether it is a method, and which one. -/
def Member.Kinded (m : Member) : Prop :=
  match m.owner with
  | some _ => ∃ x, m.body.name = some x ∧ m.body.env.kind = m.body.env.names.methodKind x
  | none => m.body.env.kind = .function ∨ m.body.env.kind = .script

mutual

theorem Statement.kinded_lineages (around : List Member) (env : Environment) (site : Site)
    (s : Statement) : ∀ l ∈ s.lineages around env site, ∀ m ∈ l.head?, m.Kinded := by
  cases s with
  | expression value | print value | ret value => exact nofun
  | ifThen condition body | whileLoop condition body =>
      exact Statement.kinded_lineages around env _ body
  | ifElse condition body otherwise =>
      exact List.forall_mem_append.mpr ⟨Statement.kinded_lineages around env _ body,
        Statement.kinded_lineages around env _ otherwise⟩
  | forLoop first condition increment body => exact Statement.kinded_lineages around _ _ body
  | block inner => exact Declaration.kinded_lineagesEach around env.enter site inner

theorem Declaration.kinded_lineages (around : List Member) (env : Environment) (site : Site)
    (d : Declaration) : ∀ l ∈ d.lineages around env site, ∀ m ∈ l.head?, m.Kinded := by
  cases d with
  | classDeclaration name superclass methods =>
      exact FunctionTree.kinded_lineagesEach around _ methods
  | funDeclaration f => exact FunctionTree.kinded_lineages around none .function _ f (.inl rfl)
  | varDeclaration name value => exact nofun
  | statement s => exact Statement.kinded_lineages around env site s

theorem Declaration.kinded_lineagesEach (around : List Member) (env : Environment) (site : Site)
    (ds : List Declaration) :
    ∀ l ∈ Declaration.lineagesEach around env site ds, ∀ m ∈ l.head?, m.Kinded := by
  cases ds with
  | nil => exact nofun
  | cons d ds =>
      exact List.forall_mem_append.mpr ⟨Declaration.kinded_lineages around env site d,
        Declaration.kinded_lineagesEach around (d.after env) _ ds⟩

theorem FunctionTree.kinded_lineages (around : List Member) (owner : Option ClassBody)
    (kind : FunctionKind) (env : Environment) (f : FunctionTree)
    (hkind : match owner with
      | some _ => kind = env.names.methodKind f.name
      | none => kind = .function ∨ kind = .script) :
    ∀ l ∈ f.lineages around owner kind env, ∀ m ∈ l.head?, m.Kinded := by
  cases f with
  | mk name parameters body =>
      refine List.forall_mem_cons.mpr ⟨fun m hm => ?_, Declaration.kinded_lineagesEach _ _ _ body⟩
      cases hm
      cases owner with
      | none => exact hkind
      | some c => exact ⟨name, rfl, hkind⟩

theorem FunctionTree.kinded_lineagesEach (around : List Member) (c : ClassBody)
    (fs : List FunctionTree) :
    ∀ l ∈ FunctionTree.lineagesEach around c fs, ∀ m ∈ l.head?, m.Kinded := by
  cases fs with
  | nil => exact nofun
  | cons f fs =>
      exact List.forall_mem_append.mpr ⟨FunctionTree.kinded_lineages around (some c) _ c.inside f rfl,
        FunctionTree.kinded_lineagesEach around c fs⟩

end

/-- All functions of a program. -/
theorem Declaration.kinded_allLineages (names : ImplicitNames) (ds : List Declaration) :
    ∀ l ∈ Declaration.allLineages names ds, ∀ m ∈ l.head?, m.Kinded := by
  refine List.forall_mem_cons.mpr ⟨fun m hm => ?_, Declaration.kinded_lineagesEach _ _ _ ds⟩
  cases hm
  exact .inr rfl

end LoxCompiler
