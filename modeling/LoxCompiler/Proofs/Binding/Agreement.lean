import LoxCompiler.Proofs.Binding.Environment
import Mathlib.Data.List.Find

/-! # Two ways to call names

A program is the same for the compiler under two ways to call its names, if every name of a variable
finds the same local under both, and a name that finds none is called the same. This is about the
roles of names only: where they are found does not depend on anything else.
-/

namespace LoxCompiler

/-- Two ways to call names that differ in names of variables only. They can be told from what is
hidden, and the second way tells apart what the first one does. -/
structure Recalling (names : ImplicitNames) (plain : Symbol → Prop) (σ σ' : Symbol → Symbol) :
    Prop where
  anonymous : σ .anonymous = .anonymous
  hidden : ∀ z ∈ names.hidden, σ' z = σ z
  init : σ' names.init = σ names.init
  plain_hidden : ∀ x z, plain x → z ∈ names.hidden → σ x ≠ σ z
  plain_hidden' : ∀ x z, plain x → z ∈ names.hidden → σ' x ≠ σ z
  separate : ∀ x y, plain x → plain y → σ' x = σ' y → σ x = σ y

/-- A name finds the same under two ways to call names. -/
def Role.Agrees (plain : Symbol → Prop) (σ σ' : Symbol → Symbol) : Role → Prop
  | .localVariable name => plain name
  | .localValue name | .global name => plain name ∧ σ' name = σ name
  | .use name visible =>
      plain name ∧
        (visible.find? fun x => σ x = σ name) = (visible.find? fun x => σ' x = σ' name) ∧
        ((visible.find? fun x => σ x = σ name) = none → σ' name = σ name)
  | .member name | .text name => σ' name = σ name

/-- What can be seen at some place is what can be named in an environment. -/
structure Sight.Shows (names : ImplicitNames) (plain : Symbol → Prop) (s : Sight)
    (env : Environment) : Prop where
  implicit : env.names = names
  inside : s.inside = true ↔ env.scopes ≠ []
  visible : s.visible = env.reachable.filter fun x => x ∉ names.hidden
  visible_plain : ∀ x ∈ s.visible, plain x
  /-- Outside all scopes there are no locals. -/
  outside : s.inside = false → s.visible = []

variable {names : ImplicitNames} {plain : Symbol → Prop} {σ σ' : Symbol → Symbol}

namespace Recalling

variable (h : Recalling names plain σ σ')

include h

theorem notMem_hidden {x : Symbol} (hx : plain x) : x ∉ names.hidden :=
  fun hmem => h.plain_hidden x x hx hmem rfl

theorem anonymous' : σ' .anonymous = .anonymous :=
  (h.hidden _ (by simp [ImplicitNames.hidden])).trans h.anonymous

theorem names_eq : names.rename σ' = names.rename σ := by
  unfold ImplicitNames.rename
  rw [h.init, h.hidden names.this (by simp [ImplicitNames.hidden]),
    h.hidden names.super (by simp [ImplicitNames.hidden])]

end Recalling

namespace Sight.Shows

variable {s : Sight} {env : Environment}

theorem enter (h : s.Shows names plain env) : s.enter.Shows names plain env.enter :=
  { implicit := h.implicit
    inside := iff_of_true rfl (List.cons_ne_nil _ _)
    visible := h.visible
    visible_plain := h.visible_plain
    outside := fun hinside => Bool.noConfusion hinside }

theorem inClass (h : s.Shows names plain env) (context : ClassContext) :
    s.Shows names plain (env.inClass context) :=
  { implicit := h.implicit
    inside := h.inside
    visible := h.visible
    visible_plain := h.visible_plain
    outside := h.outside }

theorem scopes_eq_nil (h : s.Shows names plain env) (hinside : s.inside = false) :
    env.scopes = [] := by
  by_contra hscopes
  rw [h.inside.mpr hscopes] at hinside
  exact Bool.noConfusion hinside

theorem exists_scope (h : s.Shows names plain env) (hinside : s.inside = true) :
    ∃ scope outer, env.scopes = scope :: outer :=
  List.exists_cons_of_ne_nil (h.inside.mp hinside)

/-- A local that is declared can be seen, unless it is hidden. -/
theorem declare (h : s.Shows names plain env) {name : Symbol}
    (hname : s.inside = true → plain name ∧ name ∉ names.hidden) :
    (s.declare name).Shows names plain (env.declare name) := by
  unfold Sight.declare Environment.declare
  cases hinside : s.inside with
  | false => simpa [h.scopes_eq_nil hinside] using h
  | true =>
      obtain ⟨scope, outer, hscopes⟩ := h.exists_scope hinside
      obtain ⟨hplain, hhidden⟩ := hname hinside
      simp only [hscopes, if_true]
      exact
        { implicit := h.implicit
          inside := by simp
          visible := by
            rw [h.visible]
            simp [Environment.reachable, Environment.locals, hscopes, List.filter_cons, hhidden]
          visible_plain := List.forall_mem_cons.mpr ⟨hplain, h.visible_plain⟩
          outside := fun hfalse => by simp at hfalse }

/-- A hidden local cannot be seen. -/
theorem declare_hidden (h : s.Shows names plain env) {name : Symbol} (hname : name ∈ names.hidden) :
    s.enter.Shows names plain (env.enter.declare name) :=
  { implicit := h.implicit
    inside := iff_of_true rfl (List.cons_ne_nil _ _)
    visible := by
      refine h.visible.trans ?_
      simp [Environment.declare, Environment.enter, Environment.reachable, Environment.locals,
        List.filter_cons, hname]
    visible_plain := h.visible_plain
    outside := fun hinside => Bool.noConfusion hinside }

/-- A function sees what is around it. -/
theorem function (h : s.Shows names plain env) (kind : FunctionKind) :
    Sight.Shows names plain ⟨true, s.visible⟩ (env.function kind) :=
  { implicit := h.implicit
    inside := iff_of_true rfl (List.cons_ne_nil _ _)
    visible := by
      have hhidden : env.receiverOf kind ∈ names.hidden := by
        cases kind <;> simp [Environment.receiverOf, ImplicitNames.hidden, h.implicit]
      refine h.visible.trans ?_
      simp [Environment.function, Environment.reachable, Environment.locals, List.filter_cons,
        hhidden]
    visible_plain := h.visible_plain
    outside := fun hinside => Bool.noConfusion hinside }

theorem declareEach (h : s.Shows names plain env) {xs : List Symbol}
    (hxs : ∀ x ∈ xs, plain x ∧ x ∉ names.hidden) (hinside : s.inside = true) :
    Sight.Shows names plain ⟨true, xs.reverse ++ s.visible⟩ (env.declareEach xs) := by
  induction xs generalizing s env with
  | nil =>
      cases s
      cases hinside
      exact h
  | cons x xs ih =>
      obtain ⟨hx, hrest⟩ := List.forall_mem_cons.mp hxs
      have hstep := ih (h.declare fun _ => hx) hrest (by simp [Sight.declare, hinside])
      simpa [Sight.declare, hinside, Environment.declareEach] using hstep

end Sight.Shows

/-- Nothing can be seen before a program. -/
theorem Sight.shows_script (names : ImplicitNames) (plain : Symbol → Prop) :
    Sight.Shows names plain ⟨false, []⟩ (.script names) :=
  { implicit := rfl
    inside := by simp [Environment.script]
    visible := by
      simp [Environment.script, Environment.reachable, Environment.locals, ImplicitNames.hidden]
    visible_plain := fun _ h => (List.not_mem_nil h).elim
    outside := fun _ => rfl }

theorem Environment.script_rename {ρ : Symbol → Symbol} (h : ρ .anonymous = .anonymous)
    (names : ImplicitNames) : (script names).rename ρ = script (names.rename ρ) := by
  unfold script rename
  rw [h]
  rfl

/-! ## The same places -/

section Same

variable {s : Sight} {env : Environment}

/-- The locals of a name are those that can be seen, since what is hidden is called otherwise. -/
theorem Sight.Shows.find?_reachable (hs : s.Shows names plain env) {ρ : Symbol → Symbol}
    {name : Symbol} (hhidden : ∀ z ∈ names.hidden, ρ z ≠ name) :
    (env.reachable.find? fun x => ρ x = name) = s.visible.find? fun x => ρ x = name := by
  rw [hs.visible, List.find?_filter]
  refine List.find?_congr fun x _ => ?_
  by_cases hx : ρ x = name
  · have hnot : x ∉ names.hidden := fun hmem => hhidden x hmem hx
    simp [hx, hnot]
  · simp [hx]

variable (hσ : Recalling names plain σ σ')

include hσ

/-- A name that finds the same is accessed in the same way. -/
theorem Sight.Shows.reach_eq (hs : s.Shows names plain env) {name : Symbol}
    (h : (Role.use name s.visible).Agrees plain σ σ') (f : Place → Fragment) :
    (env.rename σ).reach (σ name) f = (env.rename σ').reach (σ' name) f := by
  obtain ⟨hplain, hfind, hnone⟩ := h
  rw [Environment.reach_rename, Environment.reach_rename,
    hs.find?_reachable fun z hz => (hσ.plain_hidden name z hplain hz).symm,
    hs.find?_reachable fun z hz heq => hσ.plain_hidden' name z hplain hz
      (heq.symm.trans (hσ.hidden z hz)), ← hfind]
  cases hfound : s.visible.find? fun x => σ x = σ name with
  | some x => rfl
  | none => rw [hnone hfound]

/-- What is hidden is accessed in the same way. -/
theorem Sight.Shows.load_hidden (hs : s.Shows names plain env) {z : Symbol} (hz : z ∈ names.hidden) :
    (env.rename σ).load (σ z) = (env.rename σ').load (σ' z) := by
  unfold Environment.load
  rw [Environment.reach_rename, Environment.reach_rename, hσ.hidden z hz]
  have hfind : (env.reachable.find? fun x => σ x = σ z) =
      env.reachable.find? fun x => σ' x = σ z := by
    refine List.find?_congr fun x hx => ?_
    by_cases hmem : x ∈ names.hidden
    · rw [hσ.hidden x hmem]
    · have hplain : plain x := hs.visible_plain x (by
        rw [hs.visible]
        simp [hx, hmem])
      have h' := hσ.plain_hidden' x z hplain hz
      simp [hσ.plain_hidden x z hplain hz, h']
  rw [hfind]

theorem Sight.Shows.load_this (hs : s.Shows names plain env) :
    (env.rename σ).load (env.rename σ).names.this =
      (env.rename σ').load (env.rename σ').names.this :=
  hs.load_hidden hσ (hs.implicit ▸ List.mem_cons_self)

theorem Sight.Shows.load_super (hs : s.Shows names plain env) :
    (env.rename σ).load (env.rename σ).names.super =
      (env.rename σ').load (env.rename σ').names.super :=
  hs.load_hidden hσ (hs.implicit ▸ List.mem_cons_of_mem _ List.mem_cons_self)

end Same

/-! ## Declarations -/

namespace Sight

variable {s : Sight} {env : Environment} {x : Symbol}

theorem plain_of_variable (h : (s.variable x).Agrees plain σ σ') : plain x := by
  unfold Sight.variable at h
  split at h
  · exact h
  · exact h.1

theorem plain_of_value (h : (s.value x).Agrees plain σ σ') : plain x := by
  unfold Sight.value at h
  split at h <;> exact h.1

/-- A global variable is called the same. -/
theorem same_of_variable (h : (s.variable x).Agrees plain σ σ') (hinside : s.inside = false) :
    σ' x = σ x := by
  simp only [Sight.variable, hinside, Bool.false_eq_true, if_false] at h
  exact h.2

/-- Functions and classes are called the same. -/
theorem same_of_value (h : (s.value x).Agrees plain σ σ') : σ' x = σ x := by
  unfold Sight.value at h
  split at h <;> exact h.2

namespace Shows

theorem declare_plain (hs : s.Shows names plain env) (hσ : Recalling names plain σ σ')
    (hx : plain x) : (s.declare x).Shows names plain (env.declare x) :=
  hs.declare fun _ => ⟨hx, hσ.notMem_hidden hx⟩

/-- A declared name finds what it declares. -/
theorem use_declared (hs : s.Shows names plain env) (hx : plain x) (hsame : σ' x = σ x) :
    (Role.use x (s.declare x).visible).Agrees plain σ σ' := by
  refine ⟨hx, ?_, fun _ => hsame⟩
  unfold Sight.declare
  cases hinside : s.inside with
  | false => simp [hs.outside hinside]
  | true => simp

/-- A method is of the same kind. -/
theorem methodKind_eq (hs : s.Shows names plain env) (hσ : Recalling names plain σ σ')
    (h : (Role.member x).Agrees plain σ σ') : (env.rename σ').names.methodKind (σ' x) =
      (env.rename σ).names.methodKind (σ x) := by
  have hnames : (env.rename σ').names = (env.rename σ).names := by
    have hnames := hσ.names_eq
    rwa [← hs.implicit] at hnames
  have hx : σ' x = σ x := h
  rw [hnames, hx]

theorem header_eq (hs : s.Shows names plain env) (h : s.inside = false → σ' x = σ x) :
    (env.rename σ).header (σ x) = (env.rename σ').header (σ' x) := by
  unfold Environment.header
  rw [Environment.reserve_rename, Environment.reserve_rename]
  cases hinside : s.inside with
  | false => simp [Environment.rename, hs.scopes_eq_nil hinside, h hinside]
  | true =>
      obtain ⟨scope, outer, hscopes⟩ := hs.exists_scope hinside
      simp [Environment.rename, hscopes]

theorem declaration_eq (hs : s.Shows names plain env) (h : s.inside = false → σ' x = σ x)
    {value value' : Fragment} (hvalue : value = value') :
    (env.rename σ).declaration (σ x) value = (env.rename σ').declaration (σ' x) value' := by
  funext n
  simp only [Environment.declaration, hs.header_eq h, hvalue, Environment.define_rename]

end Shows

end Sight

end LoxCompiler
