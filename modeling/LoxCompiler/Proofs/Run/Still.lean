import LoxCompiler.Proofs.Run.Clean

/-! # Still steps

A step that emits code or manages variables takes no token. It may report what is wrong with the
meaning of a program, and does nothing else to the reader. So a clean run of it leaves the reader as
it is.
-/

set_option synthInstance.maxSize 4096

namespace LoxCompiler

namespace Diagnostic.Problem

/-- Whether a problem is about which token stands where. -/
def isSyntactic : Problem → Bool
  | .expected _ | .expectedExpression | .invalidAssignmentTarget => true
  | _ => false

/-- A problem that is not about which token stands where. -/
class Static (problem : Problem) : Prop where
  not_syntactic : problem.isSyntactic = false

instance : Static .duplicateVariable := ⟨rfl⟩
instance : Static .selfReferentialInitializer := ⟨rfl⟩
instance : Static .tooManyLocals := ⟨rfl⟩
instance : Static .tooManyUpvalues := ⟨rfl⟩
instance : Static .tooManyParameters := ⟨rfl⟩
instance : Static .tooManyArguments := ⟨rfl⟩
instance : Static .tooManyConstants := ⟨rfl⟩
instance : Static .jumpTooLarge := ⟨rfl⟩
instance : Static .loopTooLarge := ⟨rfl⟩
instance : Static .thisOutsideClass := ⟨rfl⟩
instance : Static .superOutsideClass := ⟨rfl⟩
instance : Static .superWithoutSuperclass := ⟨rfl⟩
instance : Static .returnFromScript := ⟨rfl⟩
instance : Static .returnValueFromInitializer := ⟨rfl⟩
instance : Static .inheritFromSelf := ⟨rfl⟩

end Diagnostic.Problem

namespace Compile

variable {β : Type} {w : Width β} {α γ : Type}

/-- A step that takes no token, and reports nothing about the tokens. -/
class Still (m : Compile w.settings α) : Prop where
  keeps : ∀ {P : Reader → Prop},
    (∀ r token problem, problem.isSyntactic = false → P r → P (r.reportAt token problem)) →
      ∀ {s a t}, m.run s = .ok (a, t) → P s.reader → P t.reader

/-- A clean run of a still step leaves the reader as it is. -/
theorem Still.reader_eq {m : Compile w.settings α} [hm : Still m] {s t : Session β} {a : α}
    (h : Cleanly m s a t) : t.reader = s.reader := by
  have hkept : t.reader = s.reader ∨ ¬ t.reader.Quiet :=
    hm.keeps (P := fun r => r = s.reader ∨ ¬ r.Quiet)
      (fun r _ _ _ _ => .inr (Reader.not_quiet_report r _)) h.run (.inl rfl)
  exact hkept.resolve_right (not_not_intro h.after)

theorem still_of_run {m : Compile w.settings α}
    (hm : ∀ {s a t}, m.run s = .ok (a, t) → t.reader = s.reader) : Still m where
  keeps _ _ _ _ h hs := by rwa [hm h]

theorem still_of_change {f : Session β → Except Fault (α × Session β)}
    (hf : ∀ s a t, f s = .ok (a, t) → t.reader = s.reader) :
    Still (change f : Compile w.settings α) :=
  still_of_run fun h => hf _ _ _ (ok_of_run_change h)

/-! ## Building blocks -/

instance (a : α) : Still (pure a : Compile w.settings α) :=
  still_of_run fun h => by cases h; rfl

instance (m : Compile w.settings α) (k : α → Compile w.settings γ) [hm : Still m]
    [hk : ∀ a, Still (k a)] : Still (m >>= k) where
  keeps hP s b u h hs := by
    obtain ⟨a, t, hfirst, hrest⟩ := ok_of_run_bind h
    exact (hk a).keeps hP hrest (hm.keeps hP hfirst hs)

/-- A step that goes on by cases on what it has read. -/
theorem Still.bind {m : Compile w.settings α} {k : α → Compile w.settings γ} [Still m]
    (hk : ∀ a, Still (k a)) : Still (m >>= k) :=
  inferInstance

instance {p : Prop} [Decidable p] (m k : Compile w.settings α) [hm : Still m] [hk : Still k] :
    Still (if p then m else k) := by
  split <;> assumption

instance still_forM (as : List γ) (k : γ → Compile w.settings Unit) [hk : ∀ a, Still (k a)] :
    Still (as.forM k) := by
  induction as with
  | nil => exact inferInstanceAs (Still (pure () : Compile w.settings Unit))
  | cons a as ih => exact inferInstanceAs (Still (k a >>= fun _ => as.forM k))

instance : Still (read : Compile w.settings (Session β)) :=
  still_of_run fun h => by cases h; rfl

instance (fault : Fault) : Still (throw fault : Compile w.settings α) :=
  still_of_run nofun

instance (quantity : Quantity) : Still (measure quantity : Compile w.settings Unit) :=
  inferInstanceAs (Still (pure () : Compile w.settings Unit))

instance : Still (previous : Compile w.settings _) :=
  inferInstanceAs (Still (do let s ← read; pure s.reader.previous))

instance : Still (current : Compile w.settings _) :=
  inferInstanceAs (Still (do let s ← read; pure s.reader.current))

instance (kind : TokenKind Symbol) : Still (check kind : Compile w.settings Bool) :=
  inferInstanceAs (Still (do let s ← read; pure (s.reader.check kind)))

theorem still_report {problem : Diagnostic.Problem} (h : problem.isSyntactic = false) :
    Still (report problem : Compile w.settings Unit) where
  keeps hP s a t hrun hs := by
    cases ok_of_run_change hrun
    exact hP _ _ _ h hs

instance (problem : Diagnostic.Problem) [h : problem.Static] :
    Still (report problem : Compile w.settings Unit) :=
  still_report h.not_syntactic

instance (problem : Diagnostic.Problem) [h : problem.Static] :
    Still (reportCurrent problem : Compile w.settings Unit) where
  keeps hP s a t hrun hs := by
    cases ok_of_run_change hrun
    exact hP _ _ _ h.not_syntactic hs

instance (event : Event) : Still (note event : Compile w.settings Unit) :=
  still_of_change fun s a t h => by
    cases h
    rfl

instance : Still (frame : Compile w.settings (Frame β)) :=
  still_of_run fun h => by
    obtain ⟨rfl, -⟩ := of_run_frame h
    rfl

instance (f : Frame β → Frame β) : Still (modifyFrame f : Compile w.settings Unit) :=
  still_of_run fun h => by
    obtain ⟨_, _, -, rfl⟩ := of_run_modifyFrame h
    rfl

/-! ## Emitting code -/

instance : Still (codeSize : Compile w.settings Nat) := by unfold codeSize; infer_instance

instance : Still (constantCount : Compile w.settings Nat) := by
  unfold constantCount
  infer_instance

instance (value : Nat) : Still (emitCell value : Compile w.settings Unit) := by
  unfold emitCell
  infer_instance

instance (op : Opcode) : Still (emit op : Compile w.settings Unit) := by
  unfold emit
  infer_instance

instance (op : Opcode) (operand : Nat) : Still (emitWith op operand : Compile w.settings Unit) := by
  unfold emitWith
  infer_instance

instance (value : Constant β) : Still (addConstant value : Compile w.settings Nat) := by
  unfold addConstant
  infer_instance

instance (name : Symbol) : Still (addName name : Compile w.settings Nat) := by
  unfold addName
  infer_instance

instance (problem : Diagnostic.Problem) [problem.Static] (distance : Nat) :
    Still (fitDistance problem distance : Compile w.settings Nat) := by
  unfold fitDistance
  infer_instance

instance (op : Opcode) : Still (emitJump op : Compile w.settings Nat) := by
  unfold emitJump
  infer_instance

instance (operand : Nat) : Still (patchJump operand : Compile w.settings Unit) := by
  unfold patchJump
  infer_instance

instance (start : Nat) : Still (emitLoop start : Compile w.settings Unit) := by
  unfold emitLoop
  infer_instance

/-! ## Scopes and variables -/

instance : Still (beginScope : Compile w.settings Unit) := by
  unfold beginScope
  infer_instance

instance : Still (endScope : Compile w.settings Unit) := by
  unfold endScope
  exact .bind fun f => by split <;> infer_instance

instance (name : Symbol) : Still (addLocal name : Compile w.settings Unit) := by
  rw [addLocal_eq]
  refine .bind fun f => .bind fun _ => ?_
  unfold Frame.addLocal
  split <;> dsimp only [storeFrame] <;> infer_instance

instance (name : Symbol) : Still (declareVariable name : Compile w.settings Unit) := by
  unfold declareVariable
  infer_instance

instance : Still (markInitialized : Compile w.settings Unit) := by
  unfold markInitialized
  infer_instance

instance (answer : Option (Nat × Bool)) :
    Still (localSlot answer : Compile w.settings (Option Nat)) := by
  unfold localSlot
  split <;> infer_instance

instance (name : Symbol) : Still (resolveLocal name : Compile w.settings (Option Nat)) := by
  rw [resolveLocal_eq]
  infer_instance

instance (name : Symbol) : Still
    (capture name : Compile w.settings (Except Diagnostic.Problem (Option Nat))) :=
  still_of_change fun s a t h => by
    cases h
    rfl

instance (name : Symbol) : Still
    (captureVariable name : Compile w.settings (Except Diagnostic.Problem (Option Nat))) := by
  unfold captureVariable
  infer_instance

theorem isSyntactic_captureInnermost {limits : Limits} {f : Frame β} {outer : Frames β}
    {upvalue : Upvalue} {problem : Diagnostic.Problem}
    (h : (Frames.captureInnermost limits f outer upvalue).2 = .error problem) :
    problem.isSyntactic = false := by
  unfold Frames.captureInnermost Frame.addUpvalue at h
  split at h
  · cases h
  · rename_i hadd
    split at hadd
    · cases hadd
    · split at hadd <;> cases hadd
      cases h
      rfl

/-- Why a variable cannot be captured is never about the tokens. -/
theorem isSyntactic_resolveUpvalue {limits : Limits} {name : Symbol} {problem : Diagnostic.Problem}
    (frames : Frames β) (h : (frames.resolveUpvalue limits name).2 = .error problem) :
    problem.isSyntactic = false := by
  fun_induction Frames.resolveUpvalue limits name frames with
  | case1 | case2 => cases h
  | case3 => exact isSyntactic_captureInnermost h
  | case4 => cases h; rfl
  | case5 => exact isSyntactic_captureInnermost h
  | case6 frame next outer hlocal outer' answer hother hrest ih =>
      rw [hrest] at ih
      exact ih h

instance (name : Symbol) : Still (resolveUpvalue name : Compile w.settings (Option Nat)) where
  keeps hP s index u h hs := by
    rw [resolveUpvalue_eq] at h
    obtain ⟨answer, t, hcapture, hindex⟩ := ok_of_run_bind h
    have ht := Still.keeps hP hcapture hs
    cases answer with
    | ok index => exact Still.keeps hP (m := pure index) hindex ht
    | error problem =>
        rw [captureVariable_eq] at hcapture
        have hproblem : (s.frames.resolveUpvalue w.limits name).2 = .error problem :=
          congrArg Prod.fst (Except.ok.inj (ok_of_run_change hcapture))
        have := still_report (w := w) (isSyntactic_resolveUpvalue _ hproblem)
        exact Still.keeps hP (m := do report problem; return some 0) hindex ht

instance (name : Symbol) (index : Option Nat) :
    Still (accessOuter name index : Compile w.settings Access) := by
  unfold accessOuter
  split <;> infer_instance

instance (name : Symbol) (slot : Option Nat) :
    Still (accessLocal name slot : Compile w.settings Access) := by
  unfold accessLocal
  split <;> infer_instance

instance (name : Symbol) : Still (access name : Compile w.settings Access) := by
  rw [access_eq]
  infer_instance

instance (name : Symbol) : Still (loadVariable name : Compile w.settings Unit) := by
  unfold loadVariable
  infer_instance

/-! ## Functions and classes -/

instance : Still (emitReturn : Compile w.settings Unit) := by unfold emitReturn; infer_instance

instance (global : Nat) : Still (defineVariable global : Compile w.settings Unit) := by
  unfold defineVariable
  infer_instance

instance (kind : FunctionKind) (name : Option Symbol) :
    Still (beginFrame kind name : Compile w.settings Unit) :=
  still_of_change fun s a t h => by
    cases h
    rfl

theorem run_endClass {s : Session β} {context : ClassContext} {classes : List ClassContext}
    (h : s.classes = context :: classes) :
    (endClass : Compile w.settings ClassContext).run s = .ok (context, { s with classes }) := by
  obtain ⟨names, reader, frames, classes', events⟩ := s
  obtain rfl : classes' = context :: classes := h
  rfl

theorem run_takeFrame {s : Session β} {f : Frame β} {frames : Frames β}
    (h : s.frames = f :: frames) : ∃ events,
      (takeFrame : Compile w.settings (Function β × List Upvalue)).run s =
        .ok ((f.finish, f.upvalues), { s with frames, events }) := by
  obtain ⟨names, reader, frames', classes, events⟩ := s
  obtain rfl : frames' = f :: frames := h
  exact ⟨_, rfl⟩

instance : Still (takeFrame : Compile w.settings (Function β × List Upvalue)) := by
  unfold takeFrame
  have hpop : Still (change fun s => do
      let (frame, outer) ← s.frames.pop
      return (frame, { s with frames := outer }) : Compile w.settings (Frame β)) := by
    apply still_of_change
    intro s a t h
    cases hf : s.frames.pop <;> rw [hf] at h <;> cases h
    rfl
  infer_instance

instance : Still (endFrame : Compile w.settings (Function β × List Upvalue)) := by
  rw [endFrame_eq]
  infer_instance

instance : Still (beginClass : Compile w.settings Unit) :=
  still_of_change fun s a t h => by
    cases h
    rfl

instance : Still (markSuperclass : Compile w.settings Unit) :=
  still_of_change fun s a t h => by
    cases h
    rfl

instance : Still (endClass : Compile w.settings ClassContext) :=
  still_of_change fun s a t h => by
    split at h <;> cases h
    rfl

end Compile

end LoxCompiler
