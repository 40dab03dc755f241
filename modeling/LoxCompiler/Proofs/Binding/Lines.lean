import LoxCompiler.Proofs.Binding.Agreement
import LoxCompiler.Proofs.Composition.Run
import LoxCompiler.Proofs.Scanning.Replace

/-! # The lines of other names

A program under two ways to call its names is compiled side by side, so it gets the same lines under
both.
-/

namespace LoxCompiler

mutual

/-- The names of methods are names of members. -/
theorem Statement.member_of_methodNames {x : Symbol} : ∀ (body : Statement) (s : Sight),
    x ∈ body.methodNames → .member x ∈ body.roles s
  | .expression _, _, h | .print _, _, h | .ret _, _, h => (List.not_mem_nil h).elim
  | .ifThen _ body, s, h | .whileLoop _ body, s, h =>
      List.mem_append_right _ (Statement.member_of_methodNames body s h)
  | .forLoop _ _ _ body, _, h =>
      List.mem_append_right _ (List.mem_append_right _ (List.mem_append_right _
        (Statement.member_of_methodNames body _ h)))
  | .ifElse _ body otherwise, s, h => by
      refine List.mem_append_right _ (List.mem_append.mpr ?_)
      exact (List.mem_append.mp h).imp (Statement.member_of_methodNames body s)
        (Statement.member_of_methodNames otherwise s)
  | .block inner, s, h => Declaration.member_of_methodNamesEach inner s.enter h

theorem Declaration.member_of_methodNames {x : Symbol} : ∀ (d : Declaration) (s : Sight),
    x ∈ d.methodNames → .member x ∈ d.roles s
  | .classDeclaration _ _ methods, _, h =>
      List.mem_cons_of_mem _ (List.mem_append_right _
        (FunctionTree.member_of_methodNamesEach methods _ h))
  | .funDeclaration f, _, h => List.mem_cons_of_mem _ (FunctionTree.member_of_methodNames f _ h)
  | .varDeclaration _ _, _, h => (List.not_mem_nil h).elim
  | .statement body, s, h => Statement.member_of_methodNames body s h

theorem Declaration.member_of_methodNamesEach {x : Symbol} : ∀ (ds : List Declaration) (s : Sight),
    x ∈ Declaration.methodNamesEach ds → .member x ∈ Declaration.rolesEach s ds
  | [], _, h => (List.not_mem_nil h).elim
  | d :: ds, s, h =>
      List.mem_append.mpr ((List.mem_append.mp h).imp (Declaration.member_of_methodNames d s)
        (Declaration.member_of_methodNamesEach ds (d.seen s)))

theorem FunctionTree.member_of_methodNames {x : Symbol} : ∀ (f : FunctionTree)
    (visible : List Symbol), x ∈ f.methodNames → .member x ∈ f.roles visible
  | .mk _ _ body, _, h =>
      List.mem_append_right _ (Declaration.member_of_methodNamesEach body _ h)

theorem FunctionTree.member_of_methodNamesEach {x : Symbol} : ∀ (fs : List FunctionTree)
    (visible : List Symbol), x ∈ FunctionTree.methodNamesEach fs →
      .member x ∈ FunctionTree.rolesEach visible fs
  | [], _, h => (List.not_mem_nil h).elim
  | f :: fs, visible, h => by
      rcases List.mem_cons.mp h with rfl | h
      · exact List.mem_cons_self
      · refine List.mem_cons_of_mem _ (List.mem_append.mpr ?_)
        exact (List.mem_append.mp h).imp (FunctionTree.member_of_methodNames f visible)
          (FunctionTree.member_of_methodNamesEach fs visible)

end

/-- The same methods are initializers, if methods are called the same. -/
theorem Declaration.sameKinds_methodNamesEach {names : ImplicitNames} {plain : Symbol → Prop}
    {σ σ' : Symbol → Symbol} {ds : List Declaration}
    (h : ∀ r ∈ programRoles ds, r.Agrees plain σ σ') :
    SameKinds σ σ' names (methodNamesEach ds) := by
  intro x hx
  have hmember : σ' x = σ x := h _ (member_of_methodNamesEach ds ⟨false, []⟩ hx)
  rw [hmember]

/-- Items where tokens are replaced go on with tokens on the same lines. -/
theorem Ahead.of_replaceIn {β : Type} {c : Course β} (hline : ∀ l, c.line l l)
    {items items' : List (Scanned Bytes)} {chosen : List Symbol} {other : Bytes} {n : Nat}
    (hclean : ∀ e, .error e ∉ items)
    (h : List.Forall₂ (Scanned.SameKind Eq) (Scanned.replaceIn chosen other n items) items')
    (f f' : Bytes → Symbol) :
    Ahead c (items.map (Scanned.mapName f)) (items'.map (Scanned.mapName f')) := by
  induction items generalizing n items' with
  | nil =>
      cases h
      exact .nil
  | cons item items ih =>
      cases item with
      | error e => exact (hclean e List.mem_cons_self).elim
      | ok token =>
          obtain ⟨kind, hcons⟩ : ∃ kind, Scanned.replaceIn chosen other n (.ok token :: items) =
              .ok { token with kind } :: Scanned.replaceIn chosen other (n + 1) items := by
            by_cases hmem : ⟨n⟩ ∈ chosen
            · exact ⟨_, Scanned.replaceIn_cons_of_mem hmem token⟩
            · exact ⟨token.kind, Scanned.replaceIn_cons_of_notMem hmem⟩
          rw [hcons] at h
          cases h with
          | @cons _ item' _ _ hitem hrest =>
              match item', hitem with
              | .ok token', ⟨_, (hsame : token.position.line = token'.position.line)⟩ =>
                  refine .cons ?_ (ih (fun e he => hclean e (List.mem_cons_of_mem _ he)) hrest)
                  show c.line token.position.line token'.position.line
                  exact hsame ▸ hline _

namespace Compile

variable {β : Type} {w : Width β} {names : ImplicitNames} {σ σ' : Symbol → Symbol}
  {ds : List Declaration} {ts ts' : List Kind} {items items' : List (Scanned Symbol)}
  {f f' : Function β} {t t' : Session β}

/-- A program that compiles to the same function up to lines under two ways to call its names gets
the same lines under both. -/
theorem Cleanly.alike_rename (hds : Declaration.SpelledEach (Declaration.renameEach σ ds) ts)
    (hds' : Declaration.SpelledEach (Declaration.renameEach σ' ds) ts') (hspared : names.Spared ts)
    (hspared' : names.Spared ts') (hahead : Ahead (β := β) ⟨names, Eq, False, ∅⟩ items items')
    (hkinds : SameKinds σ σ' names (Declaration.methodNamesEach ds))
    (h : Cleanly (Declaration.compileProgram (Declaration.renameEach σ ds) :
      Compile w.settings (Function β)) (Compilation.start names items) f t)
    (h' : Cleanly (Declaration.compileProgram (Declaration.renameEach σ' ds) :
      Compile w.settings (Function β)) (Compilation.start names items') f' t')
    (herased : f.eraseLines = f'.eraseLines) : f.Alike Eq Eq f' := by
  obtain ⟨-, u, g, hprogram, hframes, rfl⟩ := h.of_program hds hspared
  obtain ⟨-, u', g', hprogram', hframes', rfl⟩ := h'.of_program hds' hspared'
  let c : Course β := ⟨names, Eq, False, ∅⟩
  have hbegin : (Compilation.start names items : Session β).Abreast c
      (Compilation.start names items') :=
    { names := rfl
      names' := rfl
      reader := Reader.abreast_start rfl hahead
      frames := .script (.new _ _ _ _ _)
      classes := rfl }
  have hend := ((Declaration.begins_compileUpToReturn (w := w) (c := c) id hkinds).run _ hbegin
    hprogram hprogram').frames
  rw [hframes, hframes'] at hend
  cases hend with
  | inside _ hnone => cases hnone
  | script hg =>
      obtain ⟨fs, ls, hfs, hls, hwoven⟩ := hg.woven
      obtain rfl : Constant.functions g'.constants.toList = fs := hfs
      obtain rfl : g'.lines.toList = ls := hls
      obtain ⟨-, -, -, -, hconstants⟩ := Function.eraseLines_eq_iff.mp herased
      obtain ⟨hlines, hfunctions⟩ := hwoven.alike (Constant.eraseLines_functions hconstants)
      exact Function.alike_of_eraseLines herased hlines
        (Constant.alike_of_functions hconstants hfunctions)

end Compile

end LoxCompiler
