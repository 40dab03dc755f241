import LoxCompiler.Proofs.History.Traced

/-! # The states that steps come to

Only the step that appends a cell appends one, and only the step that adds a constant adds one. The
first one takes the line from the last token taken. A function is added as a constant right after it
has been under construction.
-/

set_option synthInstance.maxSize 4096

namespace LoxCompiler.Compile

variable {β : Type} {w : Width β} {given : Function β → Prop} {α γ : Type} {s : Session β}

/-! ## The innermost function -/

instance : Traced given (frame : Compile w.settings (Frame β)) fun _ => frame where
  traced s f t hrun := by
    obtain ⟨rfl, outer, hframes⟩ := of_run_frame hrun
    exact ⟨[], .still fun audit _ => run_frame hframes⟩

/-- The innermost function is known after it was asked for. -/
theorem TracedFrom.frame_bind {k : Frame β → Compile w.settings γ} {k' : Frame β → Audited w γ}
    (hk : ∀ f outer, s.frames = f :: outer → TracedFrom given s (k f) (k' f)) :
    TracedFrom given s (frame >>= k) fun audit => frame >>= fun f => k' f audit :=
  (Traced.traced s).bind fun f t hrun => by
    obtain ⟨rfl, outer, hframes⟩ := of_run_frame hrun
    exact hk f outer hframes

/-- A change of the innermost function. -/
theorem tracedFrom_modifyFrame {g : Frame β → Frame β}
    (hg : ∀ f outer, s.frames = f :: outer →
      Frames.Appends given s.reader.previous.position.line (f :: outer) (g f :: outer)) :
    TracedFrom given s (modifyFrame g : Compile w.settings Unit) fun _ => modifyFrame g := by
  apply tracedFrom_change
  intro a t h
  cases hframes : s.frames with
  | nil =>
      rw [hframes] at h
      cases h
  | cons f outer =>
      have happends := hg f outer hframes
      rw [hframes] at h
      cases h
      exact ⟨.refl _, hframes ▸ happends⟩

/-- A change of the innermost function that appends nothing. -/
theorem traced_modifyFrame {g : Frame β → Frame β} (hg : ∀ f : Frame β, f.SameLines (g f)) :
    Traced given (modifyFrame g : Compile w.settings Unit) fun _ => modifyFrame g where
  traced _ := tracedFrom_modifyFrame fun f outer _ =>
    .keep (.cons (hg f) (Frames.sameLines_refl outer))

instance (operand : Nat) : Traced given (modifyFrame (·.openJump operand) : Compile w.settings Unit)
    fun _ => modifyFrame (·.openJump operand) :=
  traced_modifyFrame fun _ => ⟨rfl, rfl, rfl⟩

instance (operand : Nat) (high low : β) :
    Traced given (modifyFrame (·.closeJump operand high low) : Compile w.settings Unit)
      fun _ => modifyFrame (·.closeJump operand high low) :=
  traced_modifyFrame fun f => .closeJump f operand high low

instance (arity : Nat) :
    Traced given (modifyFrame (fun frame => { frame with arity }) : Compile w.settings Unit)
      fun _ => modifyFrame (fun frame => { frame with arity }) :=
  traced_modifyFrame fun _ => ⟨rfl, rfl, rfl⟩

instance (depth : Nat) (inside : Local → Bool) :
    Traced given (modifyFrame (fun frame =>
        { frame with scopeDepth := depth, locals := frame.locals.dropWhile inside }) :
      Compile w.settings Unit) fun _ => modifyFrame (fun frame =>
        { frame with scopeDepth := depth, locals := frame.locals.dropWhile inside }) :=
  traced_modifyFrame fun _ => ⟨rfl, rfl, rfl⟩

/-! ## Emitting code -/

instance : Traced given (codeSize : Compile w.settings Nat) fun _ => codeSize := by
  unfold codeSize
  infer_instance

instance : Traced given (constantCount : Compile w.settings Nat) fun _ => constantCount := by
  unfold constantCount
  infer_instance

/-- A cell is on the line of the last token taken. -/
instance (value : Nat) :
    Traced given (emitCell value : Compile w.settings Unit) fun _ => emitCell value where
  traced s := by
    unfold emitCell
    refine (Traced.traced s).bind fun token t hrun => ?_
    cases hrun
    exact tracedFrom_modifyFrame fun f outer _ => .cell _

instance (op : Opcode) : Traced given (emit op : Compile w.settings Unit) fun _ => emit op := by
  unfold emit
  infer_instance

instance (op : Opcode) (operand : Nat) :
    Traced given (emitWith op operand : Compile w.settings Unit) fun _ => emitWith op operand := by
  unfold emitWith
  infer_instance

/-- A constant is a function only if that is given. -/
theorem traced_addConstant {value : Constant β} (hvalue : ∀ g, value = .function g → given g) :
    Traced given (addConstant value : Compile w.settings Nat) fun _ => addConstant value := by
  have hadd : Traced given (modifyFrame (·.addConstant value) : Compile w.settings Unit)
      fun _ => modifyFrame (·.addConstant value) :=
    ⟨fun s => tracedFrom_modifyFrame fun f outer _ => .constant value hvalue⟩
  unfold addConstant
  infer_instance

instance (value : Binary64) :
    Traced given (addConstant (.number value) : Compile w.settings Nat)
      fun _ => addConstant (.number value) :=
  traced_addConstant fun _ h => by cases h

instance (value : Symbol) :
    Traced given (addConstant (.string value) : Compile w.settings Nat)
      fun _ => addConstant (.string value) :=
  traced_addConstant fun _ h => by cases h

instance (name : Symbol) :
    Traced given (addName name : Compile w.settings Nat) fun _ => addName name := by
  unfold addName
  infer_instance

instance (value : Constant β) [Traced given (addConstant value : Compile w.settings Nat)
      fun _ => addConstant value] :
    Traced given (emitConstant value : Compile w.settings Unit) fun _ => emitConstant value := by
  unfold emitConstant
  infer_instance

instance (problem : Diagnostic.Problem) (distance : Nat) :
    Traced given (fitDistance problem distance : Compile w.settings Nat)
      fun _ => fitDistance problem distance := by
  unfold fitDistance
  infer_instance

instance (op : Opcode) :
    Traced given (emitJump op : Compile w.settings Nat) fun _ => emitJump op := by
  unfold emitJump
  infer_instance

instance (operand : Nat) :
    Traced given (patchJump operand : Compile w.settings Unit) fun _ => patchJump operand := by
  unfold patchJump
  infer_instance

instance (start : Nat) :
    Traced given (emitLoop start : Compile w.settings Unit) fun _ => emitLoop start := by
  unfold emitLoop
  infer_instance

instance traced_emitReturn : Traced given (emitReturn : Compile w.settings Unit)
    fun _ => emitReturn := by
  unfold emitReturn
  infer_instance

/-! ## Scopes and variables -/

instance : Traced given (beginScope : Compile w.settings Unit) fun _ => beginScope := by
  unfold beginScope
  exact traced_modifyFrame fun _ => ⟨rfl, rfl, rfl⟩

instance (locals : List Local) (depth : Nat) :
    Traced given (leaveScope locals depth : Compile w.settings Unit)
      fun _ => leaveScope locals depth := by
  cases depth <;> unfold leaveScope <;> infer_instance

instance : Traced given (endScope : Compile w.settings Unit) fun _ => endScope := by
  simp only [endScope_eq]
  infer_instance

/-- A local is declared in the function that was asked for. -/
instance (name : Symbol) :
    Traced given (addLocal name : Compile w.settings Unit) fun _ => addLocal name where
  traced s := by
    simp only [addLocal_eq]
    refine .frame_bind fun f outer hframes => ?_
    have hstore : TracedFrom given s
        (storeFrame (f.addLocal w.limits name) : Compile w.settings Unit)
        fun _ => storeFrame (f.addLocal w.limits name) := by
      cases hadd : f.addLocal w.limits name with
      | error problem =>
          show TracedFrom given s (report problem) fun _ => report problem
          exact Traced.traced s
      | ok g =>
          refine tracedFrom_modifyFrame fun f' outer' hframes' => ?_
          obtain rfl : f = f' := List.head_eq_of_cons_eq (hframes.symm.trans hframes')
          exact .keep (.cons (.addLocal hadd) (Frames.sameLines_refl outer'))
    exact (Traced.traced s).bind fun _ t hmeasure => by
      cases hmeasure
      exact hstore

instance (name : Symbol) :
    Traced given (declareVariable name : Compile w.settings Unit)
      fun _ => declareVariable name := by
  unfold declareVariable
  infer_instance

instance : Traced given (markInitialized : Compile w.settings Unit) fun _ => markInitialized := by
  unfold markInitialized
  exact traced_modifyFrame fun f => .markInitialized f

instance (message : String) :
    Traced given (declaredName message : Compile w.settings Nat) fun _ => declaredName message := by
  unfold declaredName
  infer_instance

instance (global : Nat) :
    Traced given (defineVariable global : Compile w.settings Unit)
      fun _ => defineVariable global := by
  unfold defineVariable
  infer_instance

instance (answer : Option (Nat × Bool)) :
    Traced given (localSlot answer : Compile w.settings (Option Nat))
      fun _ => localSlot answer := by
  cases answer <;> unfold localSlot <;> infer_instance

instance (name : Symbol) : Traced given (resolveLocal name : Compile w.settings (Option Nat))
    fun _ => resolveLocal name := by
  simp only [resolveLocal_eq]
  infer_instance

instance (name : Symbol) : Traced given
    (capture name : Compile w.settings (Except Diagnostic.Problem (Option Nat)))
    fun _ => capture name :=
  traced_change fun s a t h => by
    cases h
    exact ⟨.refl _, .keep (Frames.sameLines_resolveUpvalue _ name s.frames)⟩

instance (name : Symbol) : Traced given
    (captureVariable name : Compile w.settings (Except Diagnostic.Problem (Option Nat)))
    fun _ => captureVariable name := by
  unfold captureVariable
  infer_instance

instance (answer : Except Diagnostic.Problem (Option Nat)) :
    Traced given (upvalueIndex answer : Compile w.settings (Option Nat))
      fun _ => upvalueIndex answer := by
  cases answer <;> unfold upvalueIndex <;> infer_instance

instance (name : Symbol) : Traced given (resolveUpvalue name : Compile w.settings (Option Nat))
    fun _ => resolveUpvalue name := by
  simp only [resolveUpvalue_eq]
  infer_instance

instance (name : Symbol) (index : Option Nat) :
    Traced given (accessOuter name index : Compile w.settings Access)
      fun _ => accessOuter name index := by
  cases index <;> unfold accessOuter <;> infer_instance

instance (name : Symbol) (slot : Option Nat) :
    Traced given (accessLocal name slot : Compile w.settings Access)
      fun _ => accessLocal name slot := by
  cases slot <;> unfold accessLocal <;> infer_instance

instance (name : Symbol) :
    Traced given (access name : Compile w.settings Access) fun _ => access name := by
  simp only [access_eq]
  infer_instance

instance (name : Symbol) :
    Traced given (loadVariable name : Compile w.settings Unit) fun _ => loadVariable name := by
  unfold loadVariable
  infer_instance

/-! ## Functions and classes -/

instance (kind : FunctionKind) (name : Option Symbol) :
    Traced given (beginFrame kind name : Compile w.settings Unit)
      fun _ => beginFrame kind name := by
  unfold beginFrame modify
  refine traced_change fun s a t h => ?_
  cases h
  exact ⟨.refl _, .start rfl rfl rfl⟩

/-- Take the innermost function off. -/
def popFrame {c : Settings β} : Compile c (Frame β) := change fun s => do
  let (frame, outer) ← s.frames.pop
  return (frame, { s with frames := outer })

/-- Note a function that was taken off, and give it with what it captures. -/
def giveFrame {c : Settings β} (frame : Frame β) : Compile c (Function β × List Upvalue) := do
  note (.compiled frame.kind (← previous).position.line frame.code.size frame.constants.size
    frame.upvalues.length)
  return (frame.finish, frame.upvalues)

theorem takeFrame_eq {c : Settings β} :
    (takeFrame : Compile c (Function β × List Upvalue)) = popFrame >>= giveFrame := rfl

theorem of_run_popFrame {c : Settings β} {f : Frame β} {t : Session β}
    (h : (popFrame : Compile c (Frame β)).run s = .ok (f, t)) :
    ∃ outer, s.frames = f :: outer ∧ t = { s with frames := outer } := by
  have hchange := ok_of_run_change h
  cases hframes : s.frames with
  | nil =>
      rw [hframes] at hchange
      cases hchange
  | cons f outer =>
      rw [hframes] at hchange
      cases hchange
      exact ⟨outer, rfl, rfl⟩

instance traced_popFrame : Traced given (popFrame : Compile w.settings (Frame β))
    fun _ => popFrame := by
  refine traced_change fun s f t h => ?_
  obtain ⟨outer, hframes, rfl⟩ := of_run_popFrame (c := w.settings) h
  exact ⟨.refl _, hframes ▸ .finish⟩

instance (f : Frame β) : Traced given (giveFrame f : Compile w.settings (Function β × List Upvalue))
    fun _ => giveFrame f := by
  unfold giveFrame
  infer_instance

/-- A function is taken off, and given from there on. -/
theorem tracedFrom_takeFrame_bind {k : Function β × List Upvalue → Compile w.settings γ}
    {k' : Function β × List Upvalue → Audited w γ}
    (hk : ∀ finished, Traced (fun g => given g ∨ g = finished.1) (k finished) (k' finished)) :
    TracedFrom given s (takeFrame >>= k) fun audit => takeFrame >>= fun a => k' a audit := by
  simp only [takeFrame_eq, bind_assoc]
  intro b u hrun
  obtain ⟨f, t, hpop, hrest⟩ := ok_of_run_bind hrun
  obtain ⟨outer, hframes, -⟩ := of_run_popFrame hpop
  obtain ⟨later, hlater⟩ := traced_popFrame.traced s hpop
  have hgive : TracedFrom (fun g => given g ∨ g = f.finish) t (giveFrame f >>= k)
      fun audit => giveFrame f >>= fun a => k' a audit :=
    (Traced.traced t).bind fun finished t' hrun => by
      cases hrun
      exact (hk _).traced _
  obtain ⟨more, hmore⟩ := hgive hrest
  refine ⟨_, hlater.bind hmore fun g hg => hg.imp_right fun hg => ?_⟩
  exact ⟨s, List.mem_cons_self, f, hframes ▸ List.mem_cons_self, hg.symm⟩

instance : Traced given (beginClass : Compile w.settings Unit) fun _ => beginClass := by
  unfold beginClass modify
  exact traced_change_of_eq fun s a t h => by
    cases h
    exact ⟨rfl, rfl⟩

instance : Traced given (markSuperclass : Compile w.settings Unit) fun _ => markSuperclass := by
  unfold markSuperclass modify
  exact traced_change_of_eq fun s a t h => by
    cases h
    exact ⟨rfl, rfl⟩

instance : Traced given (endClass : Compile w.settings ClassContext) fun _ => endClass := by
  unfold endClass
  exact traced_change_of_eq fun s a t h => by
    split at h <;> cases h
    exact ⟨rfl, rfl⟩

end LoxCompiler.Compile
