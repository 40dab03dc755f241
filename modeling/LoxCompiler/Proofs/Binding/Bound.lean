import LoxCompiler.Proofs.Binding.Agreement

/-! # What is bound to a declaration

If the name of a local variable is changed in its declaration and wherever it is bound to this
declaration, all names find what they found before. Every local that can be seen somewhere is declared
somewhere, and no two names of a program are the same token.
-/

namespace LoxCompiler

/-! ## What can be seen is declared -/

/-- The locals that some names declare. -/
def localsOf (rs : List Role) : List Symbol := rs.filterMap fun
  | .localVariable name | .localValue name => some name
  | .global _ | .use _ _ | .member _ | .text _ => none

@[simp] theorem localsOf_nil : localsOf [] = [] := rfl

@[simp] theorem localsOf_append (rs rs' : List Role) :
    localsOf (rs ++ rs') = localsOf rs ++ localsOf rs' := List.filterMap_append

/-- Wherever a variable is used, the locals that can be seen were visible before or are declared
among the names. -/
def Covers (visible : List Symbol) (rs : List Role) : Prop :=
  ∀ name seen, .use name seen ∈ rs → seen ⊆ visible ++ localsOf rs

namespace Covers

variable {visible visible' : List Symbol} {rs rs' : List Role}

theorem nil : Covers visible [] := fun _ _ h => (List.not_mem_nil h).elim

theorem append (h : Covers visible rs) (h' : Covers visible' rs')
    (hvisible : visible' ⊆ visible ++ localsOf rs) : Covers visible (rs ++ rs') := by
  intro name seen huse x hx
  rw [localsOf_append, ← List.append_assoc]
  rcases List.mem_append.mp huse with huse | huse
  · exact List.mem_append_left _ (h name seen huse hx)
  · rcases List.mem_append.mp (h' name seen huse hx) with hx | hx
    · exact List.mem_append_left _ (hvisible hx)
    · exact List.mem_append_right _ hx

/-- Names after others that see nothing new. -/
theorem next (h : Covers visible rs) (h' : Covers visible rs') : Covers visible (rs ++ rs') :=
  h.append h' (List.subset_append_left _ _)

theorem cons {r : Role} (h : Covers visible [r]) (h' : Covers visible' rs)
    (hvisible : visible' ⊆ visible ++ localsOf [r]) : Covers visible (r :: rs) :=
  append h h' hvisible

theorem use (name : Symbol) : Covers visible [.use name visible] := by
  intro _ _ h
  cases List.mem_singleton.mp h
  exact List.subset_append_left _ _

theorem member (name : Symbol) : Covers visible [.member name] := by
  intro _ _ h
  cases List.mem_singleton.mp h

theorem «variable» (s : Sight) (name : Symbol) : Covers visible [s.variable name] := by
  intro _ _ h
  unfold Sight.variable at h
  split at h <;> cases List.mem_singleton.mp h

theorem value (s : Sight) (name : Symbol) : Covers visible [s.value name] := by
  intro _ _ h
  unfold Sight.value at h
  split at h <;> cases List.mem_singleton.mp h

theorem declare_variable (s : Sight) (name : Symbol) :
    (s.declare name).visible ⊆ s.visible ++ localsOf [s.variable name] := by
  unfold Sight.declare Sight.variable
  split
  · exact fun x hx => by simpa [localsOf, or_comm] using hx
  · exact List.subset_append_left _ _

theorem declare_value (s : Sight) (name : Symbol) :
    (s.declare name).visible ⊆ s.visible ++ localsOf [s.value name] := by
  unfold Sight.declare Sight.value
  split
  · exact fun x hx => by simpa [localsOf, or_comm] using hx
  · exact List.subset_append_left _ _

end Covers

theorem append_subset_localsOf_cons (visible : List Symbol) (r : Role) (rs : List Role) :
    visible ++ localsOf [r] ⊆ visible ++ localsOf (r :: rs) := by
  have hlocals : localsOf (r :: rs) = localsOf [r] ++ localsOf rs := localsOf_append [r] rs
  rw [hlocals, ← List.append_assoc]
  exact List.subset_append_left _ _

mutual

theorem Expression.covers_roles (visible : List Symbol) :
    ∀ e : Expression, Covers visible (e.roles visible)
  | .literal value => by
      cases value with
      | string value =>
          intro _ _ h
          cases List.mem_singleton.mp h
      | _ => exact .nil
  | .variable name => .use name
  | .assign name value =>
      .cons (.use name) (Expression.covers_roles visible value) (List.subset_append_left _ _)
  | .receiver => .nil
  | .superGet method => .member method
  | .superCall method arguments =>
      .cons (.member method) (Expression.covers_rolesEach visible arguments) (List.subset_append_left _ _)
  | .group inner => Expression.covers_roles visible inner
  | .unary _ operand => Expression.covers_roles visible operand
  | .binary _ left right | .and left right | .or left right =>
      (Expression.covers_roles visible left).next (Expression.covers_roles visible right)
  | .call callee arguments =>
      (Expression.covers_roles visible callee).next (Expression.covers_rolesEach visible arguments)
  | .get object property => (Expression.covers_roles visible object).next (.member property)
  | .set object property value =>
      (Expression.covers_roles visible object).next
        (.cons (.member property) (Expression.covers_roles visible value) (List.subset_append_left _ _))
  | .invoke object method arguments =>
      (Expression.covers_roles visible object).next
        (.cons (.member method) (Expression.covers_rolesEach visible arguments)
          (List.subset_append_left _ _))

theorem Expression.covers_rolesEach (visible : List Symbol) : ∀ es : List Expression,
    Covers visible (Expression.rolesEach visible es)
  | [] => .nil
  | e :: es => (Expression.covers_roles visible e).next (Expression.covers_rolesEach visible es)

end

theorem Expression.covers_rolesOption (visible : List Symbol) (value : Option Expression) :
    Covers visible (Expression.rolesOption visible value) := by
  cases value with
  | none => exact .nil
  | some value => exact value.covers_roles visible

/-- The uses in the first clause of a loop, and what can be seen after it. -/
theorem Initializer.covers_roles (s : Sight) (first : Initializer) :
    Covers s.visible (first.roles s) ∧
      (first.seen s).visible ⊆ s.visible ++ localsOf (first.roles s) := by
  cases first with
  | absent => exact ⟨.nil, List.subset_append_left _ _⟩
  | «variable» name value =>
      refine ⟨(Covers.variable s name).cons (Expression.covers_rolesOption s.visible value)
        (List.subset_append_left _ _), ?_⟩
      exact List.Subset.trans (Covers.declare_variable s name) (append_subset_localsOf_cons _ _ _)
  | expression value => exact ⟨value.covers_roles _, List.subset_append_left _ _⟩

/-- What can be seen after a declaration. -/
theorem Declaration.seen_subset (s : Sight) (d : Declaration) :
    (d.seen s).visible ⊆ s.visible ++ localsOf (d.roles s) := by
  cases d with
  | classDeclaration name superclass methods =>
      exact List.Subset.trans (Covers.declare_value s name) (append_subset_localsOf_cons _ _ _)
  | funDeclaration f =>
      exact List.Subset.trans (Covers.declare_value s f.name) (append_subset_localsOf_cons _ _ _)
  | varDeclaration name value =>
      exact List.Subset.trans (Covers.declare_variable s name) (append_subset_localsOf_cons _ _ _)
  | statement body => exact List.subset_append_left _ _

theorem Declaration.covers_superclassRoles (visible : List Symbol) (superclass : Option Symbol) :
    Covers visible (Declaration.superclassRoles visible superclass) := by
  cases superclass with
  | none => exact .nil
  | some superclass => exact .use superclass

mutual

theorem Statement.covers_roles : ∀ (body : Statement) (s : Sight), Covers s.visible (body.roles s)
  | .expression value, s | .print value, s => value.covers_roles s.visible
  | .ifThen condition body, s | .whileLoop condition body, s =>
      (condition.covers_roles s.visible).next (Statement.covers_roles body s)
  | .ifElse condition body otherwise, s =>
      (condition.covers_roles s.visible).next
        ((Statement.covers_roles body s).next (Statement.covers_roles otherwise s))
  | .forLoop first condition increment body, s =>
      (first.covers_roles s.enter).1.append
        ((Expression.covers_rolesOption _ condition).next
          ((Expression.covers_rolesOption _ increment).next (Statement.covers_roles body _)))
        (first.covers_roles s.enter).2
  | .ret value, s => Expression.covers_rolesOption s.visible value
  | .block inner, s => Declaration.covers_rolesEach inner s.enter

theorem Declaration.covers_roles : ∀ (d : Declaration) (s : Sight), Covers s.visible (d.roles s)
  | .classDeclaration name superclass methods, s =>
      (Covers.value s name).cons
        ((Declaration.covers_superclassRoles _ superclass).next
          (FunctionTree.covers_rolesEach methods _)) (Covers.declare_value s name)
  | .funDeclaration f, s =>
      (Covers.value s f.name).cons (FunctionTree.covers_roles f _) (Covers.declare_value s f.name)
  | .varDeclaration name value, s =>
      (Covers.variable s name).cons (Expression.covers_rolesOption s.visible value)
        (List.subset_append_left _ _)
  | .statement body, s => Statement.covers_roles body s

theorem Declaration.covers_rolesEach : ∀ (ds : List Declaration) (s : Sight),
    Covers s.visible (Declaration.rolesEach s ds)
  | [], _ => .nil
  | d :: ds, s =>
      (Declaration.covers_roles d s).append (Declaration.covers_rolesEach ds (d.seen s))
        (d.seen_subset s)

theorem FunctionTree.covers_roles : ∀ (f : FunctionTree) (visible : List Symbol),
    Covers visible (f.roles visible)
  | .mk _ parameters body, visible => by
      refine Covers.append ?_
        (Declaration.covers_rolesEach body ⟨true, parameters.reverse ++ visible⟩) ?_
      · intro _ _ h
        obtain ⟨x, -, hx⟩ := List.mem_map.mp h
        cases hx
      · intro x hx
        simpa [localsOf, List.filterMap_map, Function.comp_def, or_comm] using hx

theorem FunctionTree.covers_rolesEach : ∀ (fs : List FunctionTree) (visible : List Symbol),
    Covers visible (FunctionTree.rolesEach visible fs)
  | [], _ => .nil
  | f :: fs, visible =>
      (Covers.member f.name).cons
        ((FunctionTree.covers_roles f visible).next (FunctionTree.covers_rolesEach fs visible))
        (List.subset_append_left _ _)

end

/-- Every local that can be seen in a program is declared in it. -/
theorem Declaration.seen_subset_localsOf {ds : List Declaration} {name : Symbol}
    {visible : List Symbol} (h : .use name visible ∈ programRoles ds) :
    visible ⊆ localsOf (programRoles ds) :=
  covers_rolesEach ds ⟨false, []⟩ name visible h

/-! ## Calling a variable something else -/

section Bound

variable {ν : Type} [DecidableEq ν]

/-- The names that declare a variable or are bound to it. -/
def boundTo (called : Symbol → ν) (declared : Symbol) (rs : List Role) : List Symbol :=
  (rs.filter fun r => r.Of called declared).map Role.name

/-- What names are called after some of them are called something else. -/
def callAnew (bound : List Symbol) (other : ν) (called : Symbol → ν) (x : Symbol) : ν :=
  if x ∈ bound then other else called x

variable {called : Symbol → ν} {declared : Symbol} {rs : List Role} {r : Role}

/-- No two names are the same token, so a name has one role. -/
theorem name_mem_boundTo (hnodup : (rs.map Role.name).Nodup) (hr : r ∈ rs) :
    r.name ∈ boundTo called declared rs ↔ r.Of called declared := by
  unfold boundTo
  rw [List.mem_map]
  constructor
  · rintro ⟨r', hr', hname⟩
    obtain ⟨hr', hof⟩ := List.mem_filter.mp hr'
    obtain rfl := List.inj_on_of_nodup_map hnodup hr' hr hname
    exact of_decide_eq_true hof
  · exact fun hof => ⟨r, List.mem_filter.mpr ⟨hr, decide_eq_true hof⟩, rfl⟩

/-- What is bound to a variable depends only on which names are called the same. -/
theorem boundTo_congr {μ : Type} [DecidableEq μ] {called' : Symbol → μ}
    (h : ∀ name visible, .use name visible ∈ rs → ∀ x ∈ visible,
      (called x = called name ↔ called' x = called' name)) :
    boundTo called declared rs = boundTo called' declared rs := by
  unfold boundTo
  congr 1
  refine List.filter_congr fun r hr => decide_eq_decide.mpr ?_
  cases r with
  | use name visible =>
      have hfind : (visible.find? fun x => called x = called name) =
          visible.find? fun x => called' x = called' name :=
        List.find?_congr fun x hx => decide_eq_decide.mpr (h name visible hr x hx)
      show _ = _ ↔ _ = _
      rw [hfind]
  | _ => rfl

/-- What is bound to a variable is called like it. -/
theorem called_eq_of_mem_boundTo {x : Symbol} (h : x ∈ boundTo called declared rs) :
    called x = called declared := by
  obtain ⟨r, hr, rfl⟩ := List.mem_map.mp h
  have hof : r.Of called declared := of_decide_eq_true (List.mem_filter.mp hr).2
  cases r with
  | localVariable name => exact congrArg called hof
  | use name visible =>
      have hfound : (visible.find? fun v => called v = called name) = some declared := hof
      have hsame : called declared = called name := by simpa using List.find?_some hfound
      exact hsame.symm
  | _ => exact hof.elim

/-- A local is bound to a variable if it is the variable. -/
theorem mem_boundTo_of_mem_localsOf (hnodup : (rs.map Role.name).Nodup)
    (hdeclared : .localVariable declared ∈ rs) {x : Symbol} (hx : x ∈ localsOf rs) :
    x ∈ boundTo called declared rs ↔ x = declared := by
  obtain ⟨r, hr, hrx⟩ := List.mem_filterMap.mp hx
  cases r with
  | localVariable name =>
      cases hrx
      exact name_mem_boundTo hnodup hr
  | localValue name =>
      cases hrx
      refine (name_mem_boundTo hnodup hr).trans (iff_of_false id ?_)
      rintro rfl
      cases List.inj_on_of_nodup_map hnodup hr hdeclared rfl
  | _ => cases hrx

end Bound

/-- The first item with a property is the first one with another property that implies it, if it has
that property itself. -/
theorem find?_eq_of_imp {α : Type} {p q : α → Bool} {l : List α} (h : ∀ x ∈ l, q x → p x)
    (hfirst : ∀ x, l.find? p = some x → q x) : l.find? q = l.find? p := by
  induction l with
  | nil => rfl
  | cons x l ih =>
      obtain ⟨hx, hl⟩ := List.forall_mem_cons.mp h
      simp only [List.find?_cons] at hfirst ⊢
      cases hp : p x with
      | true => simp [hfirst x (by simp [hp])]
      | false =>
          have hq : q x = false := by
            by_contra hq
            simp [hx (by simpa using hq)] at hp
          simp only [hq]
          exact ih hl (by simpa [hp] using hfirst)

/-- If a local variable and what is bound to it are called something that no name is called, then all
names find what they found before. -/
theorem agrees_recall {rs : List Role} {plain : Symbol → Prop} {σ : Symbol → Symbol}
    {declared other : Symbol} (hnodup : (rs.map Role.name).Nodup)
    (hseen : ∀ name visible, .use name visible ∈ rs → visible ⊆ localsOf rs)
    (hdeclared : .localVariable declared ∈ rs)
    (hplain : ∀ x, .identifier x ∈ rs.map Role.kind → plain x)
    (hother : ∀ x, plain x → σ x ≠ other) :
    ∀ r ∈ rs, r.Agrees plain σ (callAnew (boundTo σ declared rs) other σ) := by
  intro r hr
  have hsame (hof : ¬ r.Of σ declared) :
      callAnew (boundTo σ declared rs) other σ r.name = σ r.name :=
    if_neg (mt (name_mem_boundTo hnodup hr).mp hof)
  cases r with
  | localVariable name => exact hplain name (List.mem_map_of_mem hr)
  | localValue name => exact ⟨hplain name (List.mem_map_of_mem hr), hsame id⟩
  | global name => exact ⟨hplain name (List.mem_map_of_mem hr), hsame id⟩
  | member name => exact hsame id
  | text name => exact hsame id
  | use name visible =>
      have hname := hplain name (List.mem_map_of_mem hr)
      have hvisible (x : Symbol) (hx : x ∈ visible) : plain x ∧
          (x ∈ boundTo σ declared rs ↔ x = declared) := by
        have hlocal := hseen name visible hr hx
        refine ⟨?_, mem_boundTo_of_mem_localsOf hnodup hdeclared hlocal⟩
        obtain ⟨r, hr, hrx⟩ := List.mem_filterMap.mp hlocal
        cases r <;> cases hrx <;> exact hplain _ (List.mem_map_of_mem hr)
      by_cases hof : (Role.use name visible).Of σ declared
      · -- only the variable itself is called like what is bound to it
        have hbound : callAnew (boundTo σ declared rs) other σ name = other :=
          if_pos ((name_mem_boundTo hnodup hr).mpr hof)
        have hfound : (visible.find? fun x => σ x = σ name) = some declared := hof
        have hmem := List.mem_of_find?_eq_some hfound
        have hsigma : σ declared = σ name := by simpa using List.find?_some hfound
        have hfind : (visible.find? fun x => callAnew (boundTo σ declared rs) other σ x =
            callAnew (boundTo σ declared rs) other σ name) = some declared := by
          rw [← hfound, hbound]
          refine find?_eq_of_imp (fun x hx hxother => ?_) fun x hx => ?_
          · have hxother : callAnew (boundTo σ declared rs) other σ x = other := by
              simpa using hxother
            have hxbound : x ∈ boundTo σ declared rs := by
              by_contra hnot
              exact hother x (hvisible x hx).1 ((if_neg hnot).symm.trans hxother)
            rw [(hvisible x hx).2.mp hxbound]
            exact decide_eq_true hsigma
          · obtain rfl := Option.some.inj (hfound.symm.trans hx)
            exact decide_eq_true (if_pos ((hvisible declared hmem).2.mpr rfl))
        exact ⟨hname, hfound.trans hfind.symm, fun hnone => nomatch hfound.symm.trans hnone⟩
      · -- the variable is not called like this name any more, and it was not the first one
        have hstays : callAnew (boundTo σ declared rs) other σ name = σ name := hsame hof
        rw [Role.Agrees, hstays]
        refine ⟨hname, (find?_eq_of_imp (fun x hx hxname => ?_) fun x hx => ?_).symm, fun _ => rfl⟩
        · have hxname : callAnew (boundTo σ declared rs) other σ x = σ name := by simpa using hxname
          have hnot : x ∉ boundTo σ declared rs := fun hbound =>
            hother name hname (hxname.symm.trans (if_pos hbound))
          exact decide_eq_true ((if_neg hnot).symm.trans hxname)
        · have hnot : x ∉ boundTo σ declared rs := fun hbound => by
            obtain rfl := (hvisible x (List.mem_of_find?_eq_some hx)).2.mp hbound
            exact hof hx
          have hsigma : σ x = σ name := by simpa using List.find?_some hx
          exact decide_eq_true ((if_neg hnot).trans hsigma)

end LoxCompiler
