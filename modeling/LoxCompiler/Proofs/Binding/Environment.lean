import LoxCompiler.Proofs.Binding.Roles
import LoxCompiler.Proofs.Blueprint.Rules
import LoxCompiler.Proofs.Control.Members
import LoxCompiler.Proofs.Machine.Resolution
import LoxCompiler.Proofs.Syntax.Rename

/-! # Environments with other names

An environment whose names are called something else. Where a name leads there depends only on the
first local that is called like it, so two ways to call the names lead to the same place if they find
the same local.
-/

namespace LoxCompiler

namespace ImplicitNames

/-- The implicit names, called something else. -/
def rename (ρ : Symbol → Symbol) (names : ImplicitNames) : ImplicitNames :=
  ⟨ρ names.this, ρ names.super, ρ names.init⟩

/-- The names of locals that no identifier refers to. -/
def hidden (names : ImplicitNames) : List Symbol := [names.this, names.super, .anonymous]

theorem hidden_rename {ρ : Symbol → Symbol} (h : ρ .anonymous = .anonymous)
    (names : ImplicitNames) : (names.rename ρ).hidden = names.hidden.map ρ := by
  simp [hidden, rename, h]

end ImplicitNames

namespace Environment

variable {ρ : Symbol → Symbol}

/-- An environment whose names are called something else. -/
def rename (ρ : Symbol → Symbol) (env : Environment) : Environment :=
  { env with
    names := env.names.rename ρ
    receiver := ρ env.receiver
    scopes := env.scopes.map (List.map ρ)
    outer := env.outer.map (List.map ρ) }

/-- The locals of the function and of those around it, newest first. -/
def reachable (env : Environment) : List Symbol := env.locals ++ env.outer.flatten

section Commute

variable (ρ) (env : Environment)

@[simp] theorem locals_rename : (env.rename ρ).locals = env.locals.map ρ := by
  simp [rename, locals, List.map_flatten]

@[simp] theorem count_rename : (env.rename ρ).count = env.count := by
  simp [count]

@[simp] theorem level_rename : (env.rename ρ).level = env.level := by
  simp [rename, level]

@[simp] theorem enter_rename : (env.rename ρ).enter = env.enter.rename ρ := rfl

@[simp] theorem inClass_rename (context : ClassContext) :
    (env.rename ρ).inClass context = (env.inClass context).rename ρ := rfl

@[simp] theorem declare_rename (name : Symbol) :
    (env.rename ρ).declare (ρ name) = (env.declare name).rename ρ := by
  cases env with
  | mk names kind classes receiver scopes outer => cases scopes <;> rfl

@[simp] theorem declareEach_rename (names : List Symbol) :
    (env.rename ρ).declareEach (names.map ρ) = (env.declareEach names).rename ρ := by
  induction names generalizing env with
  | nil => rfl
  | cons name names ih =>
      rw [declareEach, List.map_cons, List.foldl_cons, declare_rename]
      exact ih (env.declare name)

theorem function_rename (hanonymous : ρ .anonymous = .anonymous) (kind : FunctionKind) :
    (env.rename ρ).function kind = (env.function kind).rename ρ := by
  unfold function
  rw [locals_rename]
  cases kind <;> simp [rename, receiverOf, ImplicitNames.rename, hanonymous]

@[simp] theorem reserve_rename : (env.rename ρ).reserve = env.reserve := by
  unfold reserve
  rw [count_rename]
  cases env with
  | mk names kind classes receiver scopes outer => cases scopes <;> rfl

@[simp] theorem define_rename (index : Nat) : (env.rename ρ).define index = env.define index := by
  cases env with
  | mk names kind classes receiver scopes outer => cases scopes <;> rfl

@[simp] theorem reserveEach_rename (names : List Symbol) :
    (env.rename ρ).reserveEach (names.map ρ) = env.reserveEach names := by
  induction names generalizing env with
  | nil => rfl
  | cons name names ih =>
      rw [List.map_cons, reserveEach, reserveEach, reserve_rename, declare_rename, ih]

@[simp] theorem leave_rename (last : Environment) (f : Fragment) :
    (env.rename ρ).leave (last.rename ρ) f = env.leave last f := by
  simp [leave]

@[simp] theorem classBody_rename (superclass : Option Symbol) :
    (env.rename ρ).classBody (superclass.map ρ) = (env.classBody superclass).rename ρ := by
  cases superclass with
  | none => rfl
  | some superclass =>
      unfold classBody
      rw [Option.map_some, enter_rename]
      exact congrArg (inClass · ⟨true⟩) (declare_rename ρ env.enter env.names.super)

theorem after_rename (first : Initializer) :
    (first.rename ρ).after (env.rename ρ) = (first.after env).rename ρ := by
  cases first with
  | absent | expression _ => rfl
  | «variable» name value => exact env.declare_rename ρ name

end Commute

end Environment

namespace Declaration

variable (ρ : Symbol → Symbol) (env : Environment)

theorem after_rename (d : Declaration) :
    (d.rename ρ).after (env.rename ρ) = (d.after env).rename ρ := by
  cases d with
  | classDeclaration name superclass methods =>
      rw [rename]
      exact env.declare_rename ρ name
  | funDeclaration f =>
      rw [rename, after, FunctionTree.name_rename]
      exact env.declare_rename ρ f.name
  | varDeclaration name value =>
      rw [rename]
      exact env.declare_rename ρ name
  | statement s =>
      rw [rename]
      rfl

theorem afterEach_rename (ds : List Declaration) :
    afterEach (env.rename ρ) (renameEach ρ ds) = (afterEach env ds).rename ρ := by
  induction ds generalizing env with
  | nil =>
      rw [renameEach]
      rfl
  | cons d ds ih =>
      rw [renameEach, afterEach, List.foldl_cons, after_rename]
      exact ih (d.after env)

end Declaration

/-! ## What names lead to -/

/-- The slot of a name is that of the first local that is called like it. -/
theorem slot?_map (ρ : Symbol → Symbol) (name : Symbol) (locals : List Symbol) :
    slot? name (locals.map ρ) =
      (locals.find? fun x => ρ x = name).bind fun x => slot? x locals := by
  induction locals with
  | nil => rfl
  | cons x older ih =>
      rw [List.map_cons, slot?, List.find?_cons]
      by_cases hx : ρ x = name
      · simp [hx, slot?]
      · simp only [hx, if_false, ih, decide_false]
        refine Option.bind_congr fun y hy => ?_
        have hy : ρ y = name := by simpa using List.find?_some hy
        rw [slot?, if_neg]
        rintro rfl
        exact hx hy

/-- The variable of a name is that of the first local that is called like it. -/
theorem Variable.find?_map (ρ : Symbol → Symbol) (name : Symbol) (functions : List (List Symbol)) :
    Variable.find? name (functions.map (List.map ρ)) =
      (functions.flatten.find? fun x => ρ x = name).bind fun x => Variable.find? x functions := by
  induction functions with
  | nil => rfl
  | cons locals outer ih =>
      rw [List.map_cons, find?, slot?_map, List.flatten_cons, List.find?_append]
      cases hlocal : locals.find? fun x => ρ x = name with
      | some x =>
          cases hslot : slot? x locals with
          | some slot => simp [find?, hslot]
          | none => exact absurd (List.mem_of_find?_eq_some hlocal) (slot?_eq_none hslot)
      | none =>
          simp only [Option.bind_none, Option.none_or, ih]
          refine Option.bind_congr fun x hx => ?_
          have hx : ρ x = name := by simpa using List.find?_some hx
          rw [find?, slot?_of_notMem]
          intro hmem
          simpa [hx] using List.find?_eq_none.mp hlocal x hmem

namespace Environment

variable (ρ : Symbol → Symbol) (env : Environment) (name : Symbol) (index : Nat)

/-- A name leads where the first local that is called like it leads. -/
theorem place_rename : (env.rename ρ).place name index =
    match env.reachable.find? fun x => ρ x = name with
    | some x => env.place x index
    | none => .global index := by
  have houter : Variable.find? name (env.rename ρ).outer = _ :=
    Variable.find?_map ρ name env.outer
  rw [place, locals_rename, slot?_map, houter, reachable, List.find?_append]
  cases hlocal : env.locals.find? fun x => ρ x = name with
  | some x =>
      cases hslot : slot? x env.locals with
      | some slot => simp [place, hslot]
      | none => exact absurd (List.mem_of_find?_eq_some hlocal) (slot?_eq_none hslot)
  | none =>
      rw [Option.none_or]
      cases hfound : env.outer.flatten.find? fun x => ρ x = name with
      | none => rfl
      | some x =>
          have hx : ρ x = name := by simpa using List.find?_some hfound
          have hslot : slot? x env.locals = none := by
            refine slot?_of_notMem fun hmem => ?_
            simpa [hx] using List.find?_eq_none.mp hlocal x hmem
          simp only [Option.bind_none, Option.bind_some, place, hslot]

variable {name}

/-- What leads to a local needs no constant. -/
theorem place_ne_global (h : name ∈ env.reachable) (constant : Nat) :
    env.place name index ≠ .global constant := by
  unfold place
  cases hslot : slot? name env.locals with
  | some slot => exact Place.noConfusion
  | none =>
      cases houter : Variable.find? name env.outer with
      | some v => exact Place.noConfusion
      | none =>
          rcases List.mem_append.mp h with hlocal | houter'
          · exact absurd hlocal (slot?_eq_none hslot)
          · obtain ⟨locals, hlocals, hmem⟩ := List.mem_flatten.mp houter'
            exact absurd hmem (Variable.find?_eq_none houter locals hlocals)

variable (name)

/-- The access to a name is that to the first local that is called like it. -/
theorem reach_rename (f : Place → Fragment) : (env.rename ρ).reach name f =
    match env.reachable.find? fun x => ρ x = name with
    | some x => env.reach x f
    | none => fun n => (Fragment.item (.string name) ++ f (.global n)) n := by
  funext n
  unfold reach locate
  rw [place_rename, place_rename]
  cases hfound : env.reachable.find? fun x => ρ x = name with
  | none => rfl
  | some x =>
      have hmem := List.mem_of_find?_eq_some hfound
      cases hplace : env.place x 0 with
      | slot _ | captured _ => simp only [hplace]
      | global constant => exact absurd hplace (env.place_ne_global 0 hmem constant)

end Environment

end LoxCompiler
