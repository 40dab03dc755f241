import LoxCompiler.Proofs.Safety.Expression

/-! # Safe statements and declarations

Every statement and declaration runs to its end, takes a token, and leaves the stacks as they
were. So does a method of a class: even if the next token can start none of its parts, the block
that ends it takes that token.
-/

set_option synthInstance.maxSize 4096

namespace LoxCompiler

open Compile

variable {β : Type} {w : Width β} {n : Nat}

/-- What stands inside a statement is safe and takes tokens, as long as there are less than some
number of them. -/
structure Inner.Sound (n : Nat) (inner : Inner w.settings) : Prop where
  enough : n < inner.budget
  orderly : Orderly inner.declaration ∧ Orderly inner.statement
  declaration : Safe n inner.declaration
  statement : Safe n inner.statement
  progress : Progress IsToken inner.declaration

namespace Compile

/-- A loop in braces goes on only before a token. -/
theorem of_run_insideBraces {s t : Session β} {go : Bool}
    (h : (return !(← check .closeBrace) && !(← check .endOfInput) : Compile w.settings Bool).run s =
      .ok (go, t)) :
    t = s ∧ (go = true ↔ InsideBraces s.reader.current.kind) := by
  have hanswer : Except.ok (!s.reader.check .closeBrace && !s.reader.check .endOfInput, s) =
      (.ok (go, t) : Except Fault (Bool × Session β)) := h
  cases hanswer
  simp [Reader.check, InsideBraces]

section Statements

variable {inner : Inner w.settings} (hinner : inner.Sound n)
include hinner

theorem safe_inner : Safe n (expression inner.budget : Compile w.settings Unit) :=
  safe_expression (Nat.le_of_lt hinner.enough)

/-- The declarations of a block end, since each of them takes a token. -/
theorem safe_block : Safe n (block inner) := by
  have := hinner.orderly.1
  have := hinner.declaration
  have hloop : Safe n (repeatWhile (return !(← check .closeBrace) && !(← check .endOfInput))
      inner.declaration inner.budget) := by
    refine safe_repeatWhile ?_ (Nat.le_of_lt hinner.enough)
    intro s t u hcondition hstep
    obtain ⟨rfl, hgo⟩ := of_run_insideBraces hcondition
    exact hinner.progress.takes hstep (hgo.mp rfl).2
  unfold block
  infer_instance

theorem safe_varDeclaration : Safe n (varDeclaration inner) := by
  have := safe_inner hinner
  unfold varDeclaration
  infer_instance

theorem safe_expressionStatement : Safe n (expressionStatement inner) := by
  have := safe_inner hinner
  unfold expressionStatement
  infer_instance

theorem safe_printStatement : Safe n (printStatement inner) := by
  have := safe_inner hinner
  unfold printStatement
  infer_instance

theorem safe_ifStatement : Safe n (ifStatement inner) := by
  have := safe_inner hinner
  have := hinner.orderly.2
  have := hinner.statement
  unfold ifStatement
  refine .of_leads fun σ => .safe fun _ => .safe fun _ => .safe fun _ => (leads_emitJump _).bind ?_
  rintro otherwise _ ⟨hotherwise, rfl⟩
  refine .safe fun _ => .safe fun _ => (leads_emitJump _).bind ?_
  rintro done _ ⟨hdone, rfl⟩
  dsimp only at hdone
  have hne : done ≠ otherwise := by omega
  refine (leads_patchJump (done :: σ.jumps) (done + 2) (by simp) ?_ ?_
    (Nat.le_refl _)).next fun _ => ?_
  · dsimp only
    omega
  · rw [List.erase_cons_tail (by simpa using hne), List.erase_cons_head]
  · have hpatch : Leads n { σ with jumps := done :: σ.jumps, size := done + 2 }
        (patchJump done : Compile w.settings Unit) fun _ τ => τ = σ :=
      leads_patchJump σ.jumps σ.size List.mem_cons_self (Nat.le_refl _) (List.erase_cons_head ..)
        (by dsimp only; omega)
    exact .safe fun _ => .safe fun _ => .cond (fun _ => .safe fun _ => hpatch) fun _ => hpatch

theorem safe_whileStatement : Safe n (whileStatement inner) := by
  have := safe_inner hinner
  have := hinner.orderly.2
  have := hinner.statement
  unfold whileStatement
  refine .of_leads fun σ => leads_codeSize.bind ?_
  rintro start _ ⟨hstart, rfl⟩
  refine .safe fun _ => .safe fun _ => .safe fun _ => (leads_emitJump _).bind ?_
  rintro exit _ ⟨hexit, rfl⟩
  dsimp only at hexit
  refine .safe fun _ => .safe fun _ => ?_
  refine (leads_emitLoop (by dsimp only; omega)).next fun _ => ?_
  refine (leads_patchJump σ.jumps σ.size List.mem_cons_self (Nat.le_refl _)
    (List.erase_cons_head ..) (by dsimp only; omega)).next fun _ => ?_
  exact .of_safe fun _ => rfl

theorem safe_forInitializer : Safe n (forInitializer inner) := by
  have := safe_varDeclaration hinner
  have := safe_expressionStatement hinner
  unfold forInitializer
  infer_instance

/-- After the condition of a counting loop there may be a jump out of the loop. -/
theorem leads_forCondition {σ : Shape β} : Leads n σ (forCondition inner) fun exit τ =>
    match exit with
    | none => τ = σ
    | some exit => σ.size ≤ exit ∧ τ = { σ with jumps := exit :: σ.jumps, size := exit + 2 } := by
  have := safe_inner hinner
  unfold forCondition
  refine .safe fun _ => .cond (fun _ => .pure rfl) fun _ => .safe fun _ => .safe fun _ =>
    (leads_emitJump _).bind ?_
  rintro exit _ ⟨hexit, rfl⟩
  exact .safe fun _ => .pure ⟨hexit, rfl⟩

/-- The increment of a counting loop leads on inside the code. -/
theorem leads_forIncrement {σ : Shape β} {start : Nat} (hstart : start ≤ σ.size) :
    Leads n σ (forIncrement inner start) fun next τ =>
      ∃ size, next ≤ size ∧ σ.size ≤ size ∧ τ = { σ with size } := by
  have := safe_inner hinner
  unfold forIncrement
  refine .safe fun _ => .cond (fun _ => .pure ⟨σ.size, hstart, Nat.le_refl _, rfl⟩) fun _ =>
    (leads_emitJump _).bind ?_
  rintro body _ ⟨hbody, rfl⟩
  refine leads_codeSize.bind ?_
  rintro increment _ ⟨hincrement, rfl⟩
  dsimp only at hincrement
  refine .safe fun _ => .safe fun _ => .safe fun _ => ?_
  refine (leads_emitLoop (by dsimp only; omega)).next fun _ => ?_
  refine (leads_patchJump σ.jumps increment List.mem_cons_self hincrement
    (List.erase_cons_head ..) (Nat.le_refl _)).next fun _ => ?_
  exact .pure ⟨increment, Nat.le_refl _, by omega, rfl⟩

theorem safe_forStatement : Safe n (forStatement inner) := by
  have := safe_forInitializer hinner
  have := hinner.orderly.2
  have := hinner.statement
  unfold forStatement
  refine .of_leads fun σ => leads_beginScope.next fun _ => .safe fun _ => .safe fun _ =>
    leads_codeSize.bind ?_
  rintro start _ ⟨hstart, rfl⟩
  dsimp only at hstart
  have hleave : Leads n { σ with depth := σ.depth + 1 } (endScope : Compile w.settings Unit)
      fun _ τ => τ = σ := leads_endScope rfl
  refine (leads_forCondition hinner).bind ?_
  rintro (_ | exit) τ hτ
  · obtain rfl := hτ
    refine (leads_forIncrement hinner (Nat.le_refl _)).bind ?_
    rintro next _ ⟨size, hnext, hsize, rfl⟩
    dsimp only at hsize
    refine .safe fun _ => (leads_emitLoop hnext).next fun _ => ?_
    exact .forget (σ := { σ with depth := σ.depth + 1 }) (Nat.le_trans hstart hsize) hleave
  · obtain ⟨hexit, rfl⟩ := hτ
    dsimp only at hexit
    refine (leads_forIncrement hinner (by dsimp only; omega)).bind ?_
    rintro next _ ⟨size, hnext, hsize, rfl⟩
    dsimp only at hsize
    refine .safe fun _ => (leads_emitLoop hnext).next fun _ => ?_
    refine (leads_patchJump σ.jumps σ.size List.mem_cons_self hsize
      (List.erase_cons_head ..) (by dsimp only; omega)).next fun _ => ?_
    exact .safe fun _ => hleave

theorem safe_returnStatement : Safe n (returnStatement inner) := by
  have := safe_inner hinner
  unfold returnStatement
  infer_instance

theorem safe_blockStatement : Safe n (blockStatement inner) := by
  have := hinner.orderly.1
  have := safe_block hinner
  unfold blockStatement
  exact .of_leads fun σ => leads_beginScope.next fun _ => .safe fun _ => leads_endScope rfl

theorem safe_parameterList : Safe n (parameterList inner) := by
  have hparameter : ∀ count : Nat, Safe n (parameter count : Compile w.settings Unit) := by
    intro count
    unfold parameter
    infer_instance
  have := fun count => safe_separated (n := n) (parameter : Nat → Compile w.settings Unit)
    count (Nat.le_of_lt hinner.enough)
  unfold parameterList
  infer_instance

omit hinner in
instance : Safe n (previousName : Compile w.settings Symbol) := by
  unfold previousName
  exact .bind fun token => by split <;> infer_instance

/-- A function is compiled on a frame of its own, which is taken off at its end. -/
theorem safe_function (kind : FunctionKind) : Safe n (function inner kind) := by
  have := hinner.orderly.1
  have := safe_parameterList hinner
  have := safe_block hinner
  unfold function
  refine .of_leads fun σ => .safe fun _ => (leads_beginFrame _ _).bind ?_
  rintro _ _ ⟨f, hdepth, hjumps, hsize, rfl⟩
  refine leads_beginScope.next fun _ => .safe fun _ => .safe fun _ => .safe fun _ => .safe fun _ =>
    .safe fun _ => ?_
  rw [endFrame_eq, bind_assoc]
  refine .safe fun _ => (leads_takeFrame rfl).next fun finished => ?_
  rw [hdepth, hjumps]
  exact .forget hsize (.of_safe fun _ => rfl)

theorem safe_funDeclaration : Safe n (funDeclaration inner) := by
  have := hinner.orderly.1
  have := safe_function hinner
  unfold funDeclaration
  infer_instance

theorem safe_method : Safe n (method inner) := by
  have := hinner.orderly.1
  have := safe_function hinner
  unfold method
  infer_instance

/-- A block takes a token, if the next one does not end it. -/
theorem progress_block : Progress InsideBraces (block inner) := by
  have := hinner.orderly.1
  have hloop : Progress InsideBraces (repeatWhile
      (return !(← check .closeBrace) && !(← check .endOfInput)) inner.declaration inner.budget) := by
    constructor
    intro s _ t h hs
    obtain ⟨budget, hbudget⟩ := Nat.exists_eq_add_of_lt hinner.enough
    rw [hbudget] at h
    unfold repeatWhile at h
    obtain ⟨go, u, hcondition, hrest⟩ := ok_of_run_bind h
    obtain ⟨rfl, hgo⟩ := of_run_insideBraces hcondition
    rw [if_pos (hgo.mpr hs)] at hrest
    obtain ⟨_, v, hstep, hmore⟩ := ok_of_run_bind hrest
    exact Nat.lt_of_le_of_lt (remaining_le_of_run hmore) (hinner.progress.takes hstep hs.2)
  unfold block
  exact .first

theorem progress_function (kind : FunctionKind) : Progress InsideBraces (function inner kind) := by
  have := hinner.orderly.1
  have := progress_block hinner
  have hend : ∀ kind, InsideBraces kind → kind ≠ .endOfInput := fun _ h => h.2
  rw [function_eq]
  exact .rest hend fun _ => .rest hend fun _ => .rest hend fun _ => .rest hend fun _ =>
    .rest hend fun _ => .rest hend fun _ => .rest hend fun _ => .first

/-- A method takes a token, if the next one does not end the class: what can start none of its
parts is left to its block. -/
theorem progress_method : Progress InsideBraces (method inner) := by
  have := hinner.orderly.1
  have := progress_function hinner
  have hend : ∀ kind, InsideBraces kind → kind ≠ .endOfInput := fun _ h => h.2
  unfold method
  exact .rest hend fun _ => .rest hend fun _ => .rest hend fun _ => .first

/-! ## Classes -/

omit hinner in
/-- The superclass of a class is in a scope of its own. -/
theorem leads_superclassClause {σ : Shape β} {context : ClassContext} {classes : List ClassContext}
    (hclasses : σ.classes = context :: classes) (name : Symbol) :
    Leads n σ (superclassClause name : Compile w.settings Unit) fun _ τ =>
      τ = { σ with classes := ⟨true⟩ :: classes, depth := σ.depth + 1 } := by
  unfold superclassClause
  have hrest : Leads n σ (do
      beginScope
      addLocal (← read).names.super
      defineVariable 0
      loadVariable name
      emit .inherit
      markSuperclass : Compile w.settings Unit) fun _ τ =>
        τ = { σ with classes := ⟨true⟩ :: classes, depth := σ.depth + 1 } :=
    leads_beginScope.next fun _ => .safe fun _ => .safe fun _ => .safe fun _ => .safe fun _ =>
      .safe fun _ => leads_markSuperclass hclasses
  exact .safe fun _ => .safe fun _ => .cond (fun _ => .safe fun _ => hrest) fun _ => hrest

/-- The methods of a class end, since each of them takes a token. -/
theorem leads_classBody {σ τ : Shape β} (context : ClassContext) (classes : List ClassContext)
    (hclasses : σ.classes = context :: classes)
    (hτ : Leads n { σ with classes } (if context.hasSuperclass then endScope else pure () :
      Compile w.settings Unit) fun _ υ => υ = τ) (name : Symbol) :
    Leads n σ (classBody inner name) fun _ υ => υ = τ := by
  have := hinner.orderly.1
  have := safe_method hinner
  have hloop : Safe n (repeatWhile (return !(← check .closeBrace) && !(← check .endOfInput))
      (method inner) inner.budget) := by
    refine safe_repeatWhile ?_ (Nat.le_of_lt hinner.enough)
    intro s t u hcondition hstep
    obtain ⟨rfl, hgo⟩ := of_run_insideBraces hcondition
    exact (progress_method hinner).takes hstep (hgo.mp rfl)
  unfold classBody
  refine .safe fun _ => .safe fun _ => .safe fun _ => .safe fun _ => .safe fun _ =>
    (leads_endClass hclasses).bind ?_
  rintro _ _ ⟨rfl, rfl⟩
  exact hτ

theorem safe_classDeclaration : Safe n (classDeclaration inner) := by
  have := hinner.orderly.1
  rw [classDeclaration_eq]
  refine .of_leads fun σ => .safe fun _ => .safe fun _ => .safe fun _ => .safe fun _ =>
    .safe fun _ => leads_beginClass.next fun _ => .safe fun _ => .cond (fun _ => ?_) fun _ => ?_
  · refine (leads_superclassClause rfl _).next fun _ => ?_
    exact leads_classBody hinner ⟨true⟩ σ.classes rfl (leads_endScope rfl) _
  · refine leads_classBody hinner ⟨false⟩ σ.classes rfl ?_ _
    exact .cond (fun h => nomatch h) fun _ => .pure rfl

/-! ## The dispatch -/

omit hinner in
/-- What follows a token may need one token less. -/
theorem safe_accept_cond {α : Type} (kind : TokenKind Symbol) (hkind : kind ≠ .endOfInput)
    {m m' : Compile w.settings α} (hm : Safe n m) (hm' : Safe (n + 1) m') :
    Safe (n + 1) (accept kind >>= fun found => if found = true then m else m') where
  runs {σ s} hs hr := by
    by_cases hnext : s.reader.current.kind = kind
    · have hlt := Reader.remaining_advance_lt (r := s.reader) (hnext ▸ hkind)
      rw [run_bind_of_ok (run_accept_of_eq hnext)]
      exact hm.runs (hs.congr rfl rfl) (by dsimp only; omega)
    · rw [run_bind_of_ok (run_accept_of_ne hnext)]
      exact hm'.runs hs hr

omit hinner in
theorem runs_advance {α : Type} {m : Compile w.settings α} (hm : Safe n m) {σ : Shape β}
    {s : Session β} (hs : s.Shaped σ) (hr : s.reader.remaining < n + 1)
    (hkind : s.reader.current.kind ≠ .endOfInput) :
    ∃ a t, (do advance; m : Compile w.settings α).run s = .ok (a, t) ∧ t.Shaped σ := by
  have hlt := Reader.remaining_advance_lt hkind
  rw [run_bind_of_ok (show (advance : Compile w.settings Unit).run s =
    .ok ((), { s with reader := s.reader.advance }) from rfl)]
  exact hm.runs (hs.congr rfl rfl) (by dsimp only; omega)

theorem safe_statementStep : Safe (n + 1) (statementStep inner) where
  runs {σ s} hs hr := by
    have hexpression : Safe (n + 1) (expressionStatement inner) := by
      have : Safe (n + 1) (expression inner.budget : Compile w.settings Unit) :=
        safe_expression hinner.enough
      unfold expressionStatement
      infer_instance
    unfold statementStep
    rw [run_bind_of_ok (show (current : Compile w.settings _).run s = .ok (s.reader.current, s) from rfl)]
    split
    · exact runs_advance (safe_printStatement hinner) hs hr (by simp [*])
    · exact runs_advance (safe_forStatement hinner) hs hr (by simp [*])
    · exact runs_advance (safe_ifStatement hinner) hs hr (by simp [*])
    · exact runs_advance (safe_returnStatement hinner) hs hr (by simp [*])
    · exact runs_advance (safe_whileStatement hinner) hs hr (by simp [*])
    · exact runs_advance (safe_blockStatement hinner) hs hr (by simp [*])
    · exact hexpression.runs hs hr

theorem safe_declarationStep : Safe (n + 1) (declarationStep inner) := by
  have := hinner.orderly.1
  have := hinner.orderly.2
  have := safe_classDeclaration hinner
  have := safe_funDeclaration hinner
  have := safe_varDeclaration hinner
  have := safe_statementStep hinner
  unfold declarationStep
  refine safe_accept_cond (.keyword .classWord) nofun inferInstance ?_
  refine safe_accept_cond (.keyword .funWord) nofun inferInstance ?_
  exact safe_accept_cond (.keyword .varWord) nofun inferInstance inferInstance

theorem progress_statementStep : Progress IsToken (statementStep inner) := by
  have := hinner.orderly.1
  have := hinner.orderly.2
  unfold statementStep
  refine .rest_of (fun token => by split <;> infer_instance) (fun _ h => h) fun token => ?_
  split
  · exact .first
  · exact .first
  · exact .first
  · exact .first
  · exact .first
  · exact .first
  · unfold expressionStatement
    exact .first

omit hinner in
/-- A token that is taken if it is there counts, and what is done if it is not. -/
theorem progress_accept_cond {kind : TokenKind Symbol} {m m' : Compile w.settings Unit} [Orderly m]
    (hm' : Progress IsToken m') :
    Progress IsToken (accept kind >>= fun found => if found = true then m else m') where
  takes {s a t} h hs := by
    by_cases hnext : s.reader.current.kind = kind
    · rw [run_bind_of_ok (run_accept_of_eq hnext)] at h
      exact Nat.lt_of_le_of_lt (remaining_le_of_run (m := m) h) (Reader.remaining_advance_lt hs)
    · rw [run_bind_of_ok (run_accept_of_ne hnext)] at h
      exact hm'.takes h hs

theorem progress_declarationStep : Progress IsToken (declarationStep inner) := by
  have := hinner.orderly.1
  have := hinner.orderly.2
  have := progress_statementStep hinner
  unfold declarationStep
  exact progress_accept_cond (progress_accept_cond (progress_accept_cond .first))

end Statements

/-- Whatever the budget is, what stands inside a statement is sound for it. -/
theorem sound_inner (budget : Nat) :
    (⟨declaration budget, statement budget, budget + 1⟩ : Inner w.settings).Sound budget := by
  induction budget with
  | zero =>
      exact
        { enough := Nat.zero_lt_one
          orderly := ⟨inferInstance, inferInstance⟩
          declaration := ⟨fun _ h => absurd h (Nat.not_lt_zero _)⟩
          statement := ⟨fun _ h => absurd h (Nat.not_lt_zero _)⟩
          progress := ⟨fun h => nomatch h⟩ }
  | succ budget ih =>
      exact
        { enough := Nat.lt_succ_self _
          orderly := ⟨inferInstance, inferInstance⟩
          declaration := safe_declarationStep ih
          statement := safe_statementStep ih
          progress := progress_declarationStep ih }

/-- A declaration runs to its end, if the tokens that are left are less than what it may nest. -/
instance safe_declaration : Safe n (declaration n : Compile w.settings Unit) :=
  (sound_inner n).declaration

instance (budget : Nat) : Progress IsToken (declaration budget : Compile w.settings Unit) :=
  (sound_inner budget).progress

end Compile

end LoxCompiler
