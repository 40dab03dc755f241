import LoxCompiler.Proofs.WellFormed.Piece

/-! # Well-formed programs

The code of every tree is well-formed, by induction on the tree. A declaration may refer to the
local that it declares, so its code asks for the place after it.
-/

namespace LoxCompiler

open Compile (unaryCode binaryCode)
open Fragment (simple step steps withItem jumpOver)

/-! ## Accesses to variables -/

namespace Piece.WellFormed

variable {outer : List (List Symbol)} {count : Nat} {before : List Item} {p : Piece}

/-- An access to a variable of a function around, after its use. -/
theorem captured {op : Opcode} {v : Variable} (hop : op = .getUpvalue ∨ op = .setUpvalue)
    (hv : v.Of outer) (h : p.WellFormed outer count before) :
    (⟨[], [], [v], 0⟩ ++ (p ++ ⟨[.captured op v], [], [], 0⟩) : Piece).WellFormed outer count
      before where
  refers s hs := by
    rcases List.mem_append.mp hs with hs | hs
    · cases hs
    · rcases List.mem_append.mp hs with hs | hs
      · have hs := h.refers s hs
        rwa [← List.append_nil p.constants] at hs
      · cases List.mem_singleton.mp hs
        exact hop
  used i hi hlt := by
    rw [Piece.constants_append, Piece.constants_append, List.append_nil, List.nil_append] at hlt
    rw [Piece.code_append, Piece.code_append, List.nil_append, List.filterMap_append,
      List.mem_append]
    exact .inl (h.used i hi hlt)
  closures := by
    rw [Piece.code_append, Piece.code_append, List.nil_append, List.filterMap_append, h.closures,
      Piece.constants_append, Piece.constants_append, List.append_nil, List.nil_append]
    exact List.append_nil _
  known s hs := by
    have hmore : exported outer.length p.uses ⊆
        exported outer.length ([v] ++ (p.uses ++ [])) := by
      rw [List.append_nil, exported_append]
      exact List.subset_append_right _ _
    rcases List.mem_append.mp hs with hs | hs
    · cases hs
    · rcases List.mem_append.mp hs with hs | hs
      · exact (h.known s hs).of_subset hmore
      · cases List.mem_singleton.mp hs
        exact mem_exported.mpr ⟨List.mem_append_left _ (List.mem_singleton_self v), hv.level_lt⟩
  uses u hu := by
    rcases List.mem_append.mp hu with hu | hu
    · cases List.mem_singleton.mp hu
      exact .inr hv
    · rw [Piece.uses_append, List.append_nil] at hu
      exact h.uses u hu
  names s hs := by
    rcases List.mem_append.mp hs with hs | hs
    · cases hs
    · rcases List.mem_append.mp hs with hs | hs
      · rw [Piece.slots_append, Piece.slots_append]
        exact (h.names s hs).mono (by omega)
      · cases List.mem_singleton.mp hs
        trivial

/-- A closure of a function, which brings its constant and the uses of what it captures. -/
theorem closure {body : Piece} {inner : Nat} {locals : List Symbol}
    (hlocals : locals.length = count) (hbody : body.WellFormed (locals :: outer) inner [])
    (name : Option Symbol) (arity : Nat) :
    (Fragment.closure outer.length name arity (fun _ => body)).WellFormed outer count before where
  refers s hs := by
    cases List.mem_singleton.mp hs
    exact ⟨body.plan (outer.length + 1) name arity, List.getElem?_concat_length, rfl⟩
  used i hi hlt := by
    have hi : i = before.length := Nat.le_antisymm (Nat.le_of_lt_succ hlt) hi
    exact hi ▸ List.mem_singleton_self _
  closures := rfl
  known s hs := by
    cases List.mem_singleton.mp hs
    intro v hv
    obtain ⟨hv, hlt⟩ := mem_captureAll.mp hv
    rcases Nat.eq_or_lt_of_le (Nat.le_of_lt_succ hlt) with hlevel | hlevel
    · exact .inl hlevel
    · refine .inr (mem_exported.mpr ⟨List.mem_append_left _ (mem_exported.mpr ⟨hv, hlt⟩), hlevel⟩)
  uses v hv := by
    obtain ⟨hv, hlt⟩ := mem_exported.mp ((List.mem_append.mp hv).elim id nofun)
    rcases hbody.uses v hv with ⟨hlevel, _⟩ | hv
    · exact (Nat.ne_of_lt hlt hlevel).elim
    · exact hlocals ▸ hv
  names s hs := by
    cases List.mem_singleton.mp hs
    intro v hv hlevel
    obtain ⟨hv, hlt⟩ := mem_captureAll.mp hv
    apply Nat.lt_of_lt_of_le _ (Nat.le_max_left _ _)
    rcases hbody.uses v hv with ⟨hlevel', _⟩ | ⟨_, hslot⟩ | hv
    · exact (Nat.ne_of_lt hlt hlevel').elim
    · exact hlocals ▸ hslot
    · exact (Nat.ne_of_lt hv.level_lt hlevel).elim

end Piece.WellFormed

namespace Environment

variable (env : Environment)

@[simp] theorem outer_declare (name : Symbol) : (env.declare name).outer = env.outer := by
  rw [env.declare_eq name]

@[simp] theorem outer_declareEach (names : List Symbol) :
    (env.declareEach names).outer = env.outer := by
  rw [Environment.declareEach_eq]

theorem count_declare (name : Symbol) : env.count ≤ (env.declare name).count := by
  unfold declare
  split
  · exact Nat.le_refl _
  · rename_i scope outer hscopes
    simp only [count, locals, hscopes, List.flatten_cons, List.length_append, List.length_cons]
    omega

/-- A fragment is well-formed at a place, whatever constants there are before its own. -/
def WellFormed (f : Fragment) : Prop := ∀ before, f.WellFormed env.outer env.count before

namespace WellFormed

variable {env : Environment} {last : Environment} {f g : Fragment}

/-- What is well-formed at a place is so at a later one of the same function. -/
theorem mono (h : env.WellFormed f) (houter : last.outer = env.outer)
    (hcount : env.count ≤ last.count) : last.WellFormed f := by
  intro before
  rw [houter]
  exact (h before).mono hcount

protected theorem declare (h : env.WellFormed f) (name : Symbol) : (env.declare name).WellFormed f :=
  h.mono (env.outer_declare name) (env.count_declare name)

theorem empty : env.WellFormed ∅ := fun _ => .empty

protected theorem simple {op : Opcode} (hop : op.operands = .none) : env.WellFormed (simple op) :=
  fun _ => .simple hop

theorem simpleEach {ops : List Opcode} (h : ∀ op ∈ ops, op.operands = .none) :
    env.WellFormed (steps (ops.map .simple)) := fun _ => .simpleEach h

theorem jump {op : Opcode} (hop : op.operands = .jump) (distance : Nat) :
    env.WellFormed (step (.jump op distance)) := fun _ => .step hop rfl trivial trivial

theorem append (hf : env.WellFormed f) (hg : env.WellFormed g) : env.WellFormed (f ++ g) :=
  fun _ => (hf _).append (hg _)

protected theorem jumpOver (h : env.WellFormed f) {op : Opcode} (hop : op.operands = .jump)
    (extra : Nat) : env.WellFormed (jumpOver op extra f) := fun _ => (h _).jumpOver hop extra

theorem sized {g : Nat → Fragment} (hf : env.WellFormed f) (hg : ∀ size, env.WellFormed (g size)) :
    env.WellFormed (.sized f g) := fun _ => (hf _).sized fun size => hg size _

theorem loop (h : env.WellFormed f) (size : Nat) : env.WellFormed (.loop size f) :=
  fun _ => (h _).loop size

/-- A name with code that refers to it in the end. -/
theorem withName {name : Symbol} {s : Nat → Step} (hf : env.WellFormed f)
    (hs : ∀ index before, before[index]? = some (.string name) →
      (step (s index)).WellFormed env.outer env.count before)
    (hreference : ∀ index, (s index).reference? = some index) :
    env.WellFormed (withItem (.string name) fun index => f ++ step (s index)) := by
  intro before
  refine .withItem rfl ((hf _).append (hs _ _ (Item.getElem?_own _ _ _))) ?_
  rw [Fragment.append_apply, Piece.code_append, List.filterMap_append, List.mem_append]
  exact .inr (List.mem_filterMap.mpr ⟨_, List.mem_singleton_self _, hreference _⟩)

/-- A name with code and an instruction that takes it as its operand. -/
theorem named {name : Symbol} {op : Opcode} (hf : env.WellFormed f) (hop : op.operands = .constant)
    (hkind : op ≠ .constant) :
    env.WellFormed (withItem (.string name) fun index => f ++ step (.constant op index)) :=
  hf.withName (fun _ _ => .named hop hkind) fun _ => rfl

/-- A name with code and a call of the method that has it. -/
theorem invoked {name : Symbol} {op : Opcode} (hf : env.WellFormed f) (hop : op.operands = .invoke)
    (arguments : Nat) :
    env.WellFormed (withItem (.string name) fun index => f ++ step (.invoke op index arguments)) :=
  hf.withName (fun _ _ h => .step ⟨hop, _, h, rfl⟩ rfl trivial trivial) fun _ => rfl

end WellFormed

theorem wellFormed_reach {name : Symbol} {value : Fragment} (h : env.WellFormed value)
    {ofSlot ofCaptured ofGlobal : Opcode}
    (hslot : ofSlot.operands = .byte ∧ ofSlot ≠ .getUpvalue ∧ ofSlot ≠ .setUpvalue)
    (hcaptured : ofCaptured = .getUpvalue ∨ ofCaptured = .setUpvalue)
    (hglobal : ofGlobal.operands = .constant ∧ ofGlobal ≠ .constant) :
    env.WellFormed (env.reach name fun place =>
      value ++ .step (place.step ofSlot ofCaptured ofGlobal)) := by
  intro before
  unfold Fragment.WellFormed reach locate place
  cases hfind : slot? name env.locals with
  | some slot =>
      exact Fragment.WellFormed.append .empty
        (.append (h _) (.step hslot rfl trivial (Step.names_byte _ (slot?_lt hfind))))
  | none =>
      cases hfind : Variable.find? name env.outer with
      | some v => exact Piece.WellFormed.captured hcaptured (Variable.of_find? hfind) (h before)
      | none => exact h.named hglobal.1 hglobal.2 before

theorem wellFormed_load (name : Symbol) : env.WellFormed (env.load name) := by
  have h : env.WellFormed (env.reach name fun place => ∅ ++ .step place.get) :=
    env.wellFormed_reach .empty (by decide) (.inl rfl) (by decide)
  exact h

theorem wellFormed_assign (name : Symbol) {value : Fragment} (h : env.WellFormed value) :
    env.WellFormed (env.reach name fun place => value ++ .step place.set) :=
  env.wellFormed_reach h (by decide) (.inr rfl) (by decide)

end Environment

/-! ## Expressions -/

theorem Literal.wellFormed (env : Environment) (value : Literal Symbol) :
    env.WellFormed value.fragment := by
  cases value with
  | nil => exact .simple rfl
  | boolean value => cases value <;> exact .simple rfl
  | number value | string value =>
      intro before
      apply Fragment.WellFormed.withItem rfl
      · exact .step ⟨rfl, _, List.getElem?_concat_length, rfl⟩ rfl trivial trivial
      · exact List.mem_singleton_self _

mutual

/-- The code of every expression is well-formed. -/
theorem Expression.wellFormed (env : Environment) (e : Expression) :
    env.WellFormed (e.fragment env) := by
  cases e with
  | literal value => exact value.wellFormed env
  | «variable» name => exact env.wellFormed_load name
  | assign name value => exact env.wellFormed_assign name (Expression.wellFormed env value)
  | receiver => exact env.wellFormed_load _
  | superGet method =>
      exact ((env.wellFormed_load _).append (env.wellFormed_load _)).named rfl nofun
  | superCall method arguments =>
      exact (((env.wellFormed_load _).append (Expression.wellFormedEach env arguments)).append
        (env.wellFormed_load _)).invoked rfl _
  | group inner => exact Expression.wellFormed env inner
  | unary op operand =>
      have hcode : ∀ o ∈ unaryCode (.operator op), o.operands = .none := by
        cases op <;> decide
      exact (Expression.wellFormed env operand).append (.simpleEach hcode)
  | binary op left right =>
      have hcode : ∀ o ∈ binaryCode (.operator op), o.operands = .none := by
        cases op <;> decide
      exact ((Expression.wellFormed env left).append (Expression.wellFormed env right)).append
        (.simpleEach hcode)
  | and left right =>
      exact (Expression.wellFormed env left).append
        ((Environment.WellFormed.append (.simple rfl) (Expression.wellFormed env right)).jumpOver
          rfl _)
  | or left right =>
      exact ((Expression.wellFormed env left).append (.jump rfl 3)).append
        ((Environment.WellFormed.append (.simple rfl) (Expression.wellFormed env right)).jumpOver
          rfl _)
  | call callee arguments =>
      exact ((Expression.wellFormed env callee).append
        (Expression.wellFormedEach env arguments)).append
          fun _ => .step ⟨rfl, nofun, nofun⟩ rfl trivial trivial
  | get object property =>
      have hget : env.WellFormed (withItem (.string property) fun index =>
          ∅ ++ step (.constant .getProperty index)) := .named .empty rfl nofun
      exact (Expression.wellFormed env object).append hget
  | set object property value =>
      exact (Expression.wellFormed env object).append
        ((Expression.wellFormed env value).named rfl nofun)
  | invoke object method arguments =>
      exact (Expression.wellFormed env object).append
        ((Expression.wellFormedEach env arguments).invoked rfl _)

theorem Expression.wellFormedEach (env : Environment) (es : List Expression) :
    env.WellFormed (Expression.fragmentEach env es) := by
  cases es with
  | nil => exact .empty
  | cons e es => exact (Expression.wellFormed env e).append (Expression.wellFormedEach env es)

end

theorem Expression.wellFormed_initial (env : Environment) (value : Option Expression) :
    env.WellFormed (Expression.initial env value) := by
  cases value with
  | none => exact .simple rfl
  | some value => exact value.wellFormed env

/-! ## The locals that are left behind -/

namespace Environment

variable (env : Environment)

theorem count_declareEach (env : Environment) (names : List Symbol) :
    env.count ≤ (env.declareEach names).count := by
  induction names generalizing env with
  | nil => exact Nat.le_refl _
  | cons name names ih => exact Nat.le_trans (env.count_declare name) (ih (env.declare name))

/-- A fragment asks for the slots of the locals that it leaves behind. -/
def Covers (last : Environment) (f : Fragment) : Prop :=
  ∀ n, last.count ≤ max env.count (f n).slots

namespace Covers

variable {env} {last middle : Environment} {f g : Fragment}

theorem refl (env : Environment) (f : Fragment) : env.Covers env f := fun _ => Nat.le_max_left _ _

theorem append (hf : env.Covers middle f) (hg : middle.Covers last g) : env.Covers last (f ++ g) := by
  intro n
  have hf := hf n
  have hg := hg (n + (f n).constants.length)
  rw [Fragment.append_apply, Piece.slots_append]
  omega

/-- Code after a declaration only asks for more slots. -/
theorem before (hf : env.Covers last f) (g : Fragment) : env.Covers last (f ++ g) :=
  hf.append (.refl last g)

end Covers

theorem covers_reserve (name : Symbol) : env.Covers (env.declare name) env.reserve := by
  intro n
  unfold reserve declare
  cases hscopes : env.scopes with
  | nil => exact Nat.le_max_left _ _
  | cons scope outer =>
      apply Nat.le_trans _ (Nat.le_max_right _ _)
      simp only [count, locals, hscopes, List.flatten_cons, List.length_append, List.length_cons,
        Fragment.reserve]
      omega

theorem covers_header (name : Symbol) : env.Covers (env.declare name) (env.header name) := by
  have hreserve := env.covers_reserve name
  unfold header
  cases hscopes : env.scopes with
  | nil =>
      have hsame : env.declare name = env := by
        unfold declare
        rw [hscopes]
      rw [hsame]
      exact .refl _ _
  | cons scope outer => exact hreserve

theorem covers_declaration (name : Symbol) (value : Fragment) :
    env.Covers (env.declare name) (env.declaration name value) := fun n =>
  ((env.covers_header name).before value).before (env.define n) n

end Environment

theorem Declaration.outer_after (env : Environment) (d : Declaration) :
    (d.after env).outer = env.outer := by
  cases d with
  | classDeclaration name _ _ | funDeclaration _ | varDeclaration name _ => exact env.outer_declare _
  | statement s => rfl

theorem Declaration.count_after (env : Environment) (d : Declaration) :
    env.count ≤ (d.after env).count := by
  cases d with
  | classDeclaration name _ _ | funDeclaration _ | varDeclaration name _ => exact env.count_declare _
  | statement s => exact Nat.le_refl _

theorem Declaration.outer_afterEach (env : Environment) (ds : List Declaration) :
    (Declaration.afterEach env ds).outer = env.outer := by
  induction ds generalizing env with
  | nil => rfl
  | cons d ds ih => exact (ih (d.after env)).trans (d.outer_after env)

theorem Declaration.count_afterEach (env : Environment) (ds : List Declaration) :
    env.count ≤ (Declaration.afterEach env ds).count := by
  induction ds generalizing env with
  | nil => exact Nat.le_refl _
  | cons d ds ih => exact Nat.le_trans (d.count_after env) (ih (d.after env))

theorem Initializer.outer_after (env : Environment) (first : Initializer) :
    (first.after env).outer = env.outer := by
  cases first with
  | «variable» name value => exact env.outer_declare _
  | absent | expression value => rfl

theorem Initializer.count_after (env : Environment) (first : Initializer) :
    env.count ≤ (first.after env).count := by
  cases first with
  | «variable» name value => exact env.count_declare _
  | absent | expression value => exact Nat.le_refl _

theorem Initializer.covers (env : Environment) (first : Initializer) :
    env.Covers (first.after env) (first.fragment env) := by
  cases first with
  | «variable» name value => exact env.covers_declaration name _
  | absent | expression value => exact .refl _ _

theorem Declaration.covers (env : Environment) (d : Declaration) :
    env.Covers (d.after env) (d.fragment env) := by
  cases d with
  | classDeclaration name superclass methods =>
      intro n
      have hreserve := env.covers_reserve name (n + 1)
      simp only [fragment, withItem, Fragment.append_apply, Piece.slots_append]
      exact Nat.le_trans hreserve (by simp only [Fragment.item, List.length_singleton]; omega)
  | funDeclaration f => exact env.covers_declaration f.name _
  | varDeclaration name value => exact env.covers_declaration name _
  | statement s => exact .refl _ _

theorem Declaration.coversEach (env : Environment) (ds : List Declaration) :
    env.Covers (Declaration.afterEach env ds) (Declaration.fragmentEach env ds) := by
  induction ds generalizing env with
  | nil => exact .refl _ _
  | cons d ds ih => exact (d.covers env).append (ih (d.after env))

/-! ## Statements and declarations -/

namespace Environment

variable (env : Environment)

theorem wellFormed_reserve : env.WellFormed env.reserve := by
  intro before
  unfold reserve
  split
  · exact .empty
  · exact .reserve _

theorem wellFormed_reserveEach (env : Environment) (names : List Symbol) :
    (env.declareEach names).WellFormed (env.reserveEach names) := by
  induction names generalizing env with
  | nil => exact .empty
  | cons name names ih =>
      exact (env.wellFormed_reserve.mono (env.outer_declareEach _) (env.count_declareEach _)).append
        (ih (env.declare name))

/-- The declaration of a variable, whose value may refer to it. -/
theorem wellFormed_declaration {name : Symbol} {value : Fragment}
    (h : (env.declare name).WellFormed value) :
    (env.declare name).WellFormed (env.declaration name value) := by
  intro before
  unfold declaration header define
  cases env.scopes with
  | nil =>
      have hnamed : (env.declare name).WellFormed (withItem (.string name) fun index =>
        value ++ step (.constant .defineGlobal index)) := h.named rfl nofun
      show Fragment.WellFormed _ _ _ (.item _ ++ value ++ .step _)
      rw [Fragment.append_assoc]
      exact hnamed before
  | cons scope outer => exact ((env.wellFormed_reserve.declare name).append h).append .empty before

/-- A fragment in a scope of its own. -/
theorem wellFormed_leave {last : Environment} {f : Fragment} (h : last.WellFormed f)
    (houter : last.outer = env.outer) (hcovers : env.Covers last f) :
    env.WellFormed (env.leave last f) := by
  intro before
  have h := h before
  rw [houter] at h
  exact h.drop (hcovers _)

theorem wellFormed_counting {condition increment : Option Expression} {body : Fragment}
    (h : env.WellFormed body) : env.WellFormed (.counting
      (condition.map (Expression.fragment env)) (increment.map (Expression.fragment env)) body) := by
  have hrounds (size : Nat) : env.WellFormed
      (Fragment.counting.rounds (increment.map (Expression.fragment env)) body size) := by
    cases increment with
    | none => exact h.loop size
    | some increment =>
        exact (((((increment.wellFormed env).append (.simple rfl)).loop _).jumpOver rfl 0).append
          h).sized fun size => .jump rfl size
  cases condition with
  | none => exact hrounds 0
  | some condition =>
      exact (condition.wellFormed env).sized fun size =>
        ((WellFormed.append (.simple rfl) (hrounds (size + 4))).jumpOver rfl 0).append (.simple rfl)

theorem wellFormed_classFragment {name : Symbol} {superclass : Option Symbol}
    {methods : Environment → Fragment}
    (h : (env.classBody superclass).WellFormed (methods (env.classBody superclass))) :
    env.WellFormed (env.classFragment name superclass methods) := by
  cases superclass with
  | none => exact ((env.wellFormed_load name).append h).append (.simple rfl)
  | some superclass =>
      have hload := (env.enter.declare env.names.super).wellFormed_load name
      have hreserve := env.enter.wellFormed_reserve.declare env.names.super
      have hcovers := env.enter.covers_reserve env.names.super
      apply (env.wellFormed_load superclass).append
      apply env.wellFormed_leave _ (env.enter.outer_declare _)
      · exact ((((hcovers.before _).before _).before _).before _).before _
      · exact ((((hreserve.append hload).append (.simple rfl)).append hload).append h).append
          (.simple rfl)

end Environment

theorem Initializer.wellFormed (env : Environment) (first : Initializer) :
    (first.after env).WellFormed (first.fragment env) := by
  cases first with
  | absent => exact .empty
  | «variable» name value =>
      exact env.wellFormed_declaration ((Expression.wellFormed_initial env value).declare name)
  | expression value => exact (value.wellFormed env).append (.simple rfl)

theorem FunctionKind.wellFormed_returnSteps (kind : FunctionKind) (env : Environment) :
    env.WellFormed (steps kind.returnSteps) := by
  have hreceiver : env.WellFormed (step (.byte .getLocal 0)) :=
    fun _ => .step ⟨rfl, nofun, nofun⟩ rfl trivial env.count_pos
  cases kind with
  | initializer => exact hreceiver.append (.simple rfl)
  | function | method | script =>
      exact (Environment.WellFormed.simple rfl).append (.simple rfl)

namespace FunctionBody

variable (b : FunctionBody)

/-- The place at the end of a function. -/
def last : Environment := Declaration.afterEach b.inside b.body

theorem outer_inside : b.inside.outer = b.env.outer := b.env.outer_declareEach b.parameters

theorem outer_last : b.last.outer = b.env.outer :=
  (Declaration.outer_afterEach b.inside b.body).trans b.outer_inside

/-- The code of a function is well-formed if the code of its body is. -/
theorem wellFormed_of_body (h : b.last.WellFormed (Declaration.fragmentEach b.inside b.body)) :
    ∀ before, b.fragment.WellFormed b.env.outer b.last.count before := by
  have hall := (((b.env.wellFormed_reserveEach b.parameters).mono
    (Declaration.outer_afterEach b.inside b.body)
    (Declaration.count_afterEach b.inside b.body)).append h).append
      (b.env.kind.wellFormed_returnSteps b.last)
  intro before
  rw [← b.outer_last]
  exact hall before

/-- A function asks for the slots of its parameters and of all locals that its body leaves behind. -/
theorem covers : b.env.Covers b.last b.fragment := by
  have hparameters : ∀ (env : Environment) (names : List Symbol),
      env.Covers (env.declareEach names) (env.reserveEach names) := by
    intro env names
    induction names generalizing env with
    | nil => exact .refl _ _
    | cons name names ih => exact (env.covers_reserve name).append (ih (env.declare name))
  exact ((hparameters b.env b.parameters).append (Declaration.coversEach b.inside b.body)).before _

end FunctionBody

mutual

/-- The code of every statement is well-formed. -/
theorem Statement.wellFormed (env : Environment) (s : Statement) :
    env.WellFormed (s.fragment env) := by
  cases s with
  | expression value | print value => exact (value.wellFormed env).append (.simple rfl)
  | ifThen condition body =>
      exact ((condition.wellFormed env).append ((Environment.WellFormed.append (.simple rfl)
        (Statement.wellFormed env body)).jumpOver rfl 3)).append
          (Environment.WellFormed.jumpOver (.simple rfl) rfl 0)
  | ifElse condition body otherwise =>
      exact ((condition.wellFormed env).append ((Environment.WellFormed.append (.simple rfl)
        (Statement.wellFormed env body)).jumpOver rfl 3)).append
          ((Environment.WellFormed.append (.simple rfl)
            (Statement.wellFormed env otherwise)).jumpOver rfl 0)
  | whileLoop condition body =>
      exact (((condition.wellFormed env).append ((Environment.WellFormed.append (.simple rfl)
        (Statement.wellFormed env body)).jumpOver rfl 3)).loop 0).append (.simple rfl)
  | forLoop first condition increment body =>
      apply env.wellFormed_leave _ (first.outer_after env.enter)
      · exact (first.covers env.enter).before _
      · exact (first.wellFormed env.enter).append (Environment.wellFormed_counting _
          (Statement.wellFormed (first.after env.enter) body))
  | ret value =>
      cases value with
      | none => exact env.kind.wellFormed_returnSteps env
      | some value => exact (value.wellFormed env).append (.simple rfl)
  | block inner =>
      exact env.wellFormed_leave (Declaration.wellFormedEach env.enter inner)
        (Declaration.outer_afterEach env.enter inner) (Declaration.coversEach env.enter inner)

/-- The code of every declaration is well-formed. -/
theorem Declaration.wellFormed (env : Environment) (d : Declaration) :
    (d.after env).WellFormed (d.fragment env) := by
  cases d with
  | classDeclaration name superclass methods =>
      have hmethods := FunctionTree.wellFormedEach ((env.declare name).classBody superclass) methods
      have hclass : (env.declare name).WellFormed ((env.declare name).classFragment name superclass
          fun inside => FunctionTree.fragmentEach inside methods) :=
        (env.declare name).wellFormed_classFragment hmethods
      have hdefine {before : List Item} {index : Nat} (h : before[index]? = some (.string name)) :
          (env.define index).WellFormed (env.declare name).outer (env.declare name).count before := by
        unfold Environment.define
        split
        · exact .named rfl nofun h
        · exact .empty
      intro before
      apply Fragment.WellFormed.withItem rfl
      · apply Fragment.WellFormed.append _ (hclass _)
        apply Fragment.WellFormed.append _ (hdefine (Item.getElem?_own _ _ _))
        apply Fragment.WellFormed.append (env.wellFormed_reserve.declare name _)
        exact .named rfl nofun (Item.getElem?_own _ _ _)
      · simp only [Fragment.append_apply, Piece.code_append, List.filterMap_append, List.mem_append]
        exact .inl (.inl (.inr (List.mem_singleton_self _)))
  | funDeclaration f =>
      exact env.wellFormed_declaration (FunctionTree.wellFormed .function (env.declare f.name) f)
  | varDeclaration name value =>
      exact env.wellFormed_declaration ((Expression.wellFormed_initial env value).declare name)
  | statement s => exact Statement.wellFormed env s

theorem Declaration.wellFormedEach (env : Environment) (ds : List Declaration) :
    (Declaration.afterEach env ds).WellFormed (Declaration.fragmentEach env ds) := by
  cases ds with
  | nil => exact .empty
  | cons d ds =>
      exact ((Declaration.wellFormed env d).mono (Declaration.outer_afterEach (d.after env) ds)
        (Declaration.count_afterEach (d.after env) ds)).append
          (Declaration.wellFormedEach (d.after env) ds)

/-- The code that makes a closure of a function is well-formed. -/
theorem FunctionTree.wellFormed (kind : FunctionKind) (env : Environment) (f : FunctionTree) :
    env.WellFormed (f.fragment kind env) := by
  cases f with
  | mk name parameters body =>
      have hbody := FunctionBody.wellFormed_of_body ⟨env.function kind, some name, parameters, body⟩
        (Declaration.wellFormedEach ((env.function kind).declareEach parameters) body)
      exact fun _ => Piece.WellFormed.closure rfl (hbody []) _ _

theorem FunctionTree.wellFormedEach (env : Environment) (fs : List FunctionTree) :
    env.WellFormed (FunctionTree.fragmentEach env fs) := by
  cases fs with
  | nil => exact .empty
  | cons f fs =>
      have hf : env.WellFormed (withItem (.string f.name) fun index =>
          FunctionTree.fragment (env.names.methodKind f.name) env f ++
            step (.constant .method index)) :=
        (FunctionTree.wellFormed (env.names.methodKind f.name) env f).named rfl nofun
      exact hf.append (FunctionTree.wellFormedEach env fs)

end

/-- The code of every function is well-formed by itself. -/
theorem FunctionBody.wellFormed (b : FunctionBody) :
    b.fragment.WellFormed b.env.outer b.last.count [] :=
  b.wellFormed_of_body (Declaration.wellFormedEach b.inside b.body) []

end LoxCompiler
