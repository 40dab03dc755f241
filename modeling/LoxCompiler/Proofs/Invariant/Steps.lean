import LoxCompiler.Proofs.Invariant.Obeys

/-! # Steps on functions, scopes and variables

The steps that emit code and look up variables keep the invariant in every state. A variable is
declared in a settled state only, scopes and functions begin and end in settled states, and a
declared variable that is made available settles the state again. Only the beginning and the end of
functions and classes change what is open.
-/

set_option synthInstance.maxSize 4096

namespace LoxCompiler

variable {β : Type}

namespace Session

variable {limits : Limits} {σ τ : Stage} {κ : Nesting} {s t : Session β}

/-- The innermost function has a scope. -/
def InScope (s : Session β) : Prop := ∀ f ∈ s.frames.head?, f.scopeDepth ≠ 0

/-- There is no function any more, or the invariant holds in a settled state. -/
def Ended (limits : Limits) (κ : Nesting) (s : Session β) : Prop :=
  s.frames = [] ∨ s.Sound limits ⟨true, κ⟩

/-- The functions under construction change as the locals may move, and the captured variables are
those of the next functions out. -/
theorem Sound.proper (h : s.Sound limits σ) (hnames : t.names = s.names)
    (hmoves : Outline.Moves limits s.names (s.frames.map Frame.outline)
      (t.frames.map Frame.outline))
    (hlinked : Frames.Linked limits t.frames)
    (hsettled : τ.settled = true → ∀ f ∈ t.frames.head?, f.outline.Settled)
    (hnesting : t.nesting = τ.nesting) : s.Proper limits t ∧ t.Sound limits τ := by
  have hsound : Frames.Sound limits t.names t.frames :=
    ⟨hnames ▸ h.frames.outlines.moves hmoves, hlinked⟩
  exact ⟨.inr ⟨hnames, h.frames, hsound, hmoves⟩, hsound, hsettled, hnesting⟩

end Session

namespace Compile

variable {w : Width β} {audit : Audit β} {α γ : Type} {σ : Stage}
  {κ : Nesting} {settled settled' : Bool}

/-! ## The innermost function -/

/-- The innermost function is known after it was asked for. -/
theorem obeys_frame (P : Session β → Prop) :
    Obeys P (frame : Compile w.settings (Frame β)) (frame : Compile (w.audited audit) (Frame β))
      fun f t => P t ∧ ∃ outer, t.frames = f :: outer := by
  intro s f t hs hrun
  obtain ⟨rfl, outer, hframes⟩ := of_run_frame hrun
  exact ⟨run_frame hframes, hs, outer, hframes⟩

instance : Obedient σ (frame : Compile w.settings (Frame β))
    (frame : Compile (w.audited audit) (Frame β)) :=
  ⟨(obeys_frame _).mono (fun _ h => h) fun _ _ h => h.1⟩

variable [htolerant : audit.Tolerant w.limits]

/-- A change of the innermost function that moves its locals. -/
theorem obeys_modifyFrame {P : Session β → Prop} {g : Frame β → Frame β}
    (hP : ∀ s, P s → s.Sound w.limits ⟨settled, κ⟩)
    (hg : ∀ s f outer, P s → s.frames = f :: outer →
      ((g f).upvalues = f.upvalues ∧ (g f).kind = f.kind) ∧
      Outline.Moves w.limits s.names (f.outline :: outer.map Frame.outline)
        ((g f).outline :: outer.map Frame.outline) ∧ (settled' = true → (g f).outline.Settled)) :
    Obeys P (modifyFrame g : Compile w.settings Unit) (modifyFrame g : Compile (w.audited audit) Unit)
      fun _ => (·.Sound w.limits ⟨settled', κ⟩) := by
  apply obeys_change
  intro s _ t hs hrun
  have hsound := hP s hs
  obtain ⟨f, outer, hframes⟩ := hsound.exists_cons
  obtain ⟨⟨hupvalues, hkind⟩, hmoves, hsettled⟩ := hg s f outer hs hframes
  rw [hframes] at hrun
  cases hrun
  refine hsound.proper rfl ?_ ?_ ?_ ?_
  · rw [hframes]
    exact hmoves
  · have hlinked := hsound.frames.linked
    rw [hframes] at hlinked
    exact hlinked.withHead hupvalues
  · intro hτ f' hf'
    cases hf'
    exact hsettled hτ
  · have hnesting := hsound.nesting
    rw [Session.nesting, hframes, List.map_cons] at hnesting
    show (⟨s.classes.length, (g f).kind :: outer.map Frame.kind⟩ : Nesting) = κ
    rw [hkind]
    exact hnesting

/-- A change of the innermost function that leaves its variables alone. -/
theorem obedient_modifyFrame {g : Frame β → Frame β}
    (hg : ∀ f : Frame β, (g f).outline = f.outline ∧ (g f).upvalues = f.upvalues) :
    Obedient σ (modifyFrame g : Compile w.settings Unit)
      (modifyFrame g : Compile (w.audited audit) Unit) where
  obeys := obeys_modifyFrame (fun _ h => h) fun s f outer hs hframes => by
    obtain ⟨houtline, hupvalues⟩ := hg f
    have hkind : (g f).kind = f.kind := congrArg Outline.kind houtline
    rw [houtline]
    refine ⟨⟨hupvalues, hkind⟩, .stay, fun hσ => hs.settled hσ f ?_⟩
    rw [hframes]
    rfl

instance (cell : β) (line : Nat) : Obedient σ (modifyFrame (·.write cell line) : Compile w.settings Unit)
    (modifyFrame (·.write cell line) : Compile (w.audited audit) Unit) :=
  obedient_modifyFrame fun _ => ⟨rfl, rfl⟩

instance (value : Constant β) : Obedient σ (modifyFrame (·.addConstant value) : Compile w.settings Unit)
    (modifyFrame (·.addConstant value) : Compile (w.audited audit) Unit) :=
  obedient_modifyFrame fun _ => ⟨rfl, rfl⟩

instance (operand : Nat) : Obedient σ (modifyFrame (·.openJump operand) : Compile w.settings Unit)
    (modifyFrame (·.openJump operand) : Compile (w.audited audit) Unit) :=
  obedient_modifyFrame fun _ => ⟨rfl, rfl⟩

instance (operand : Nat) (high low : β) :
    Obedient σ (modifyFrame (·.closeJump operand high low) : Compile w.settings Unit)
      (modifyFrame (·.closeJump operand high low) : Compile (w.audited audit) Unit) :=
  obedient_modifyFrame fun _ => ⟨rfl, rfl⟩

instance (arity : Nat) :
    Obedient σ (modifyFrame (fun frame => { frame with arity }) : Compile w.settings Unit)
      (modifyFrame (fun frame => { frame with arity }) : Compile (w.audited audit) Unit) :=
  obedient_modifyFrame fun _ => ⟨rfl, rfl⟩

/-! ## Emitting code -/

omit htolerant in
instance : Obedient σ (codeSize : Compile w.settings Nat) (codeSize : Compile (w.audited audit) Nat) := by
  unfold codeSize
  infer_instance

omit htolerant in
instance : Obedient σ (constantCount : Compile w.settings Nat)
    (constantCount : Compile (w.audited audit) Nat) := by
  unfold constantCount
  infer_instance

instance (value : Nat) : Obedient σ (emitCell value : Compile w.settings Unit)
    (emitCell value : Compile (w.audited audit) Unit) := by
  unfold emitCell
  infer_instance

instance (op : Opcode) : Obedient σ (emit op : Compile w.settings Unit)
    (emit op : Compile (w.audited audit) Unit) := by
  unfold emit
  infer_instance

instance (op : Opcode) (operand : Nat) : Obedient σ (emitWith op operand : Compile w.settings Unit)
    (emitWith op operand : Compile (w.audited audit) Unit) := by
  unfold emitWith
  infer_instance

instance (value : Constant β) : Obedient σ (addConstant value : Compile w.settings Nat)
    (addConstant value : Compile (w.audited audit) Nat) := by
  unfold addConstant
  infer_instance

instance (name : Symbol) : Obedient σ (addName name : Compile w.settings Nat)
    (addName name : Compile (w.audited audit) Nat) := by
  unfold addName
  infer_instance

instance (value : Constant β) : Obedient σ (emitConstant value : Compile w.settings Unit)
    (emitConstant value : Compile (w.audited audit) Unit) := by
  unfold emitConstant
  infer_instance

instance (problem : Diagnostic.Problem) (distance : Nat) :
    Obedient σ (fitDistance problem distance : Compile w.settings Nat)
      (fitDistance problem distance : Compile (w.audited audit) Nat) := by
  unfold fitDistance
  infer_instance

instance (op : Opcode) : Obedient σ (emitJump op : Compile w.settings Nat)
    (emitJump op : Compile (w.audited audit) Nat) := by
  unfold emitJump
  infer_instance

instance (operand : Nat) : Obedient σ (patchJump operand : Compile w.settings Unit)
    (patchJump operand : Compile (w.audited audit) Unit) := by
  unfold patchJump
  infer_instance

instance (start : Nat) : Obedient σ (emitLoop start : Compile w.settings Unit)
    (emitLoop start : Compile (w.audited audit) Unit) := by
  unfold emitLoop
  infer_instance

instance : Obedient σ (emitReturn : Compile w.settings Unit)
    (emitReturn : Compile (w.audited audit) Unit) := by
  unfold emitReturn
  infer_instance

/-! ## Looking up variables -/

instance (answer : Option (Nat × Bool)) : Obedient σ (localSlot answer : Compile w.settings (Option Nat))
    (localSlot answer : Compile (w.audited audit) (Option Nat)) := by
  cases answer <;> unfold localSlot <;> infer_instance

instance (name : Symbol) : Obedient σ (resolveLocal name : Compile w.settings (Option Nat))
    (resolveLocal name : Compile (w.audited audit) (Option Nat)) := by
  rw [resolveLocal_eq, resolveLocal_eq]
  infer_instance

instance (name : Symbol) : Obedient σ
    (capture name : Compile w.settings (Except Diagnostic.Problem (Option Nat)))
    (capture name : Compile (w.audited audit) _) where
  obeys := obeys_change fun s a t hs h => by
    cases h
    obtain ⟨hkeeps, hlinked, -⟩ := Frames.resolveUpvalue_keeps w.limits name hs.frames.linked
    have houtlines := Frames.map_outline_of_keeps hkeeps
    refine hs.proper rfl ?_ hlinked ?_ ?_
    · show Outline.Moves w.limits s.names (s.frames.map Frame.outline)
        ((s.frames.resolveUpvalue w.limits name).1.map Frame.outline)
      rw [houtlines]
      exact .stay
    · intro hσ f hf
      have hhead := congrArg List.head? houtlines
      rw [List.head?_map, List.head?_map] at hhead
      change f ∈ (s.frames.resolveUpvalue w.limits name).1.head? at hf
      rw [Option.mem_def.mp hf] at hhead
      obtain ⟨g, hg, heq⟩ := Option.map_eq_some_iff.mp hhead.symm
      rw [← heq]
      exact hs.settled hσ g hg
    · have hkinds := congrArg (List.map Outline.kind) houtlines
      rw [List.map_map, List.map_map] at hkinds
      rw [← hs.nesting]
      exact congrArg (Nesting.mk s.classes.length) hkinds

instance (name : Symbol) : Obedient σ
    (captureVariable name : Compile w.settings (Except Diagnostic.Problem (Option Nat)))
    (captureVariable name : Compile (w.audited audit) _) := by
  unfold captureVariable
  infer_instance

instance (answer : Except Diagnostic.Problem (Option Nat)) :
    Obedient σ (upvalueIndex answer : Compile w.settings (Option Nat))
      (upvalueIndex answer : Compile (w.audited audit) (Option Nat)) := by
  cases answer <;> unfold upvalueIndex <;> infer_instance

instance (name : Symbol) : Obedient σ (resolveUpvalue name : Compile w.settings (Option Nat))
    (resolveUpvalue name : Compile (w.audited audit) (Option Nat)) := by
  rw [resolveUpvalue_eq, resolveUpvalue_eq]
  infer_instance

instance (name : Symbol) (index : Option Nat) :
    Obedient σ (accessOuter name index : Compile w.settings Access)
      (accessOuter name index : Compile (w.audited audit) Access) := by
  cases index <;> unfold accessOuter <;> infer_instance

instance (name : Symbol) (slot : Option Nat) :
    Obedient σ (accessLocal name slot : Compile w.settings Access)
      (accessLocal name slot : Compile (w.audited audit) Access) := by
  cases slot <;> unfold accessLocal <;> infer_instance

instance (name : Symbol) : Obedient σ (access name : Compile w.settings Access)
    (access name : Compile (w.audited audit) Access) := by
  rw [access_eq, access_eq]
  infer_instance

instance (name : Symbol) : Obedient σ (loadVariable name : Compile w.settings Unit)
    (loadVariable name : Compile (w.audited audit) Unit) := by
  unfold loadVariable
  infer_instance

/-! ## Scopes -/

omit htolerant in
theorem inScope_of_beginScope {s t : Session β} {a : Unit}
    (h : (beginScope : Compile w.settings Unit).run s = .ok (a, t)) : t.InScope := by
  obtain ⟨f, outer, -, rfl⟩ := of_run_modifyFrame h
  intro f' hf'
  cases hf'
  exact Nat.succ_ne_zero _

theorem obeys_beginScope : Obeys (·.Sound w.limits ⟨true, κ⟩) (beginScope : Compile w.settings Unit)
    (beginScope : Compile (w.audited audit) Unit)
    fun _ t => t.Sound w.limits ⟨true, κ⟩ ∧ t.InScope := by
  intro s a t hs hrun
  have henter : Obeys (·.Sound w.limits ⟨true, κ⟩) (beginScope : Compile w.settings Unit)
      (beginScope : Compile (w.audited audit) Unit) fun _ => (·.Sound w.limits ⟨true, κ⟩) :=
    obeys_modifyFrame (fun _ h => h) fun s f outer hs hframes => by
      have hsettled : f.outline.Settled := hs.settled rfl f (by rw [hframes]; rfl)
      exact ⟨⟨rfl, rfl⟩, .enter hsettled, fun _ => hsettled⟩
  obtain ⟨hrun', ht⟩ := henter hs hrun
  exact ⟨hrun', ht, inScope_of_beginScope hrun⟩

instance : Obedient ⟨true, κ⟩ (endScope : Compile w.settings Unit)
    (endScope : Compile (w.audited audit) Unit) where
  obeys := by
    unfold endScope
    refine (obeys_frame _).bind fun f => ?_
    cases hdepth : f.scopeDepth with
    | zero => exact fun _ _ _ _ hrun => nomatch hrun
    | succ depth =>
        refine (obeys_modifyFrame (fun _ h => h.1) ?_).bind fun _ => Obedient.obeys
        rintro s g outer ⟨hs, rest, hfirst⟩ hframes
        obtain rfl : f = g := List.head_eq_of_cons_eq (hfirst.symm.trans hframes)
        have hsettled : f.outline.Settled := hs.settled rfl f (by rw [hframes]; rfl)
        have hleft : Frame.outline { f with
            scopeDepth := depth, locals := f.locals.dropWhile (·.declaredWithin (depth + 1)) } =
            { f.outline with
              scopeDepth := depth
              locals := f.outline.locals.dropWhile (Outline.within (depth + 1)) } := by
          simp only [Frame.outline, List.dropWhile_map]
          rfl
        rw [hleft]
        refine ⟨⟨rfl, rfl⟩, .leave hsettled hdepth, fun _ l hl => ?_⟩
        have hall := hs.frames.outlines
        rw [hframes] at hall
        exact hall.head.depth_ne_none hsettled l
          (List.dropWhile_suffix _ |>.subset (List.mem_of_mem_head? hl))

/-! ## Declaring variables -/

/-- A report leaves the functions alone. -/
theorem obeys_report (problem : Diagnostic.Problem) {P : Session β → Prop}
    (hP : ∀ s, P s → s.Sound w.limits σ)
    (hkeeps : ∀ (s : Session β) reader, P s → P { s with reader }) :
    Obeys P (report problem : Compile w.settings Unit)
      (report problem : Compile (w.audited audit) Unit) fun _ => P := by
  apply obeys_change
  intro s _ t hs h
  cases h
  exact ⟨(hP s hs).proper_of_frames_eq rfl rfl, hkeeps s _ hs⟩

/-- A local is declared in a scope. -/
theorem obeys_addLocal (name : Symbol) :
    Obeys (fun s => s.Sound w.limits ⟨true, κ⟩ ∧ s.InScope) (addLocal name : Compile w.settings Unit)
      (addLocal name : Compile (w.audited audit) Unit) fun _ => (·.Sound w.limits ⟨false, κ⟩) := by
  rw [addLocal_eq, addLocal_eq]
  refine (obeys_frame _).bind fun f => ?_
  show Obeys _ (storeFrame (f.addLocal w.limits name)) (storeFrame (f.addLocal w.limits name)) _
  cases hadd : f.addLocal w.limits name with
  | error problem =>
      unfold storeFrame
      exact (Obedient.obeys (σ := ⟨true, κ⟩)).mono (fun _ h => h.1.1) fun _ _ h => h.forget
  | ok g =>
      unfold Frame.addLocal at hadd
      split at hadd
      · rename_i hroom
        cases hadd
        refine obeys_modifyFrame (fun _ h => h.1.1) ?_
        rintro s f' outer ⟨⟨hs, hscope⟩, rest, hfirst⟩ hframes
        obtain rfl : f = f' := List.head_eq_of_cons_eq (hfirst.symm.trans hframes)
        have hhead : f ∈ s.frames.head? := by rw [hframes]; rfl
        refine ⟨⟨rfl, rfl⟩, .declare (hs.settled rfl f hhead) (hscope f hhead) ?_, nofun⟩
        simpa [Frame.outline] using hroom
      · cases hadd

theorem obeys_declareVariable (name : Symbol) :
    Obeys (·.Sound w.limits ⟨true, κ⟩) (declareVariable name : Compile w.settings Unit)
      (declareVariable name : Compile (w.audited audit) Unit) fun _ => (·.Sound w.limits ⟨false, κ⟩) := by
  unfold declareVariable
  refine (obeys_frame _).bind fun f => .cond (fun hdepth => ?_) fun _ => ?_
  · have hscope : ∀ s : Session β, (s.Sound w.limits ⟨true, κ⟩ ∧ ∃ outer, s.frames = f :: outer) →
        s.Sound w.limits ⟨true, κ⟩ ∧ s.InScope := by
      rintro s ⟨hs, outer, hframes⟩
      refine ⟨hs, fun g hg => ?_⟩
      rw [hframes] at hg
      cases hg
      exact hdepth
    have hadd : Obeys (fun s => s.Sound w.limits ⟨true, κ⟩ ∧ ∃ outer, s.frames = f :: outer)
        (addLocal name : Compile w.settings Unit) (addLocal name : Compile (w.audited audit) Unit)
        fun _ => (·.Sound w.limits ⟨false, κ⟩) := (obeys_addLocal name).mono hscope fun _ _ h => h
    refine .cond (fun _ => ?_) fun _ => hadd
    refine (obeys_report .duplicateVariable (fun _ h => h.1) ?_).bind fun _ => hadd
    rintro s reader ⟨hs, hframes⟩
    exact ⟨hs.congr rfl rfl rfl, hframes⟩
  · exact .pure fun _ h => h.1.forget

theorem obeys_markInitialized :
    Obeys (·.Sound w.limits ⟨settled, κ⟩) (markInitialized : Compile w.settings Unit)
    (markInitialized : Compile (w.audited audit) Unit) fun _ => (·.Sound w.limits ⟨true, κ⟩) := by
  refine obeys_modifyFrame (fun _ h => h) fun s f outer hs hframes => ?_
  have hall := hs.frames.outlines
  rw [hframes] at hall
  unfold Frame.markInitialized
  split
  · rename_i hdepth
    exact ⟨⟨rfl, rfl⟩, .stay, fun _ => hall.head.outside hdepth⟩
  · cases hlocals : f.locals with
    | nil => exact ⟨⟨rfl, rfl⟩, .stay, fun _ l hl => by simp [Frame.outline, hlocals] at hl⟩
    | cons newest older =>
        obtain ⟨name, depth, captured⟩ := newest
        cases depth with
        | none =>
            have hnewest : f.outline.locals =
                (name, none) :: older.map fun l => (l.name, l.depth) := by
              simp [Frame.outline, hlocals]
            refine ⟨⟨rfl, rfl⟩, .settle hnewest, fun _ l hl => ?_⟩
            cases hl
            simp
        | some depth =>
            refine ⟨⟨rfl, rfl⟩, .stay, fun _ l hl => ?_⟩
            simp only [Frame.outline, hlocals, List.map_cons, List.head?_cons, Option.mem_some] at hl
            simp [← hl]

theorem obeys_declaredName (message : String) :
    Obeys (·.Sound w.limits ⟨true, κ⟩) (declaredName message : Compile w.settings Nat)
      (declaredName message : Compile (w.audited audit) Nat) fun _ => (·.Sound w.limits ⟨false, κ⟩) := by
  unfold declaredName
  exact .next fun name => (obeys_declareVariable name).bind fun _ => Obedient.obeys

/-- A variable that is made available settles the state: outside of all scopes there is nothing to
settle. -/
theorem obeys_defineVariable (global : Nat) :
    Obeys (·.Sound w.limits ⟨settled, κ⟩) (defineVariable global : Compile w.settings Unit)
      (defineVariable global : Compile (w.audited audit) Unit) fun _ => (·.Sound w.limits ⟨true, κ⟩) := by
  unfold defineVariable
  refine (obeys_frame _).bind fun f => .cond (fun _ => ?_) fun hdepth => ?_
  · exact obeys_markInitialized.mono (fun _ h => h.1) fun _ _ h => h
  · refine (Obedient.obeys (σ := ⟨true, κ⟩)).mono ?_ fun _ _ h => h
    rintro s ⟨hs, outer, hframes⟩
    refine ⟨hs.frames, fun _ g hg => ?_, hs.nesting⟩
    have hall := hs.frames.outlines
    rw [hframes] at hall hg
    cases hg
    exact hall.head.outside (Nat.eq_zero_of_not_pos hdepth)

/-! ## Functions and classes -/

theorem obeys_beginFrame {kind : FunctionKind} (hkind : kind ≠ .script) (name : Option Symbol) :
    Obeys (·.Sound w.limits ⟨true, κ⟩) (beginFrame kind name : Compile w.settings Unit)
      (beginFrame kind name : Compile (w.audited audit) Unit)
      fun _ => (·.Sound w.limits ⟨true, κ.openFunction kind⟩) := by
  apply obeys_change
  intro s _ t hs hrun
  cases hrun
  obtain ⟨f, outer, hframes⟩ := hs.exists_cons
  have hall := hs.frames.outlines
  have hlinked := hs.frames.linked
  rw [hframes] at hall hlinked
  have hroom : Limits.admits w.limits.locals 1 = true := by
    obtain ⟨newer, hlocals, -⟩ := hall.head.receiver
    refine Limits.admits_of_le ?_ hall.head.room
    rw [hlocals, List.length_append, List.length_singleton]
    exact Nat.le_add_left _ _
  have hnew : ∀ receiver, receiver = kind.receiver s.names →
      (Frame.new kind name receiver : Frame β).outline =
        ⟨kind, 0, [(kind.receiver s.names, some 0)]⟩ := by
    rintro _ rfl
    rfl
  refine hs.proper rfl ?_ ?_ (fun _ g hg => ?_) ?_
  · have hsettled : f.outline.Settled := hs.settled rfl f (by rw [hframes]; rfl)
    dsimp only
    rw [List.map_cons, hnew _ (by cases kind <;> rfl), hframes]
    exact .begin hsettled hkind hroom
  · dsimp only
    rw [hframes]
    refine ⟨⟨fun u hu => (List.not_mem_nil hu).elim, List.nodup_nil, ?_⟩, hlinked⟩
    cases hlimit : w.limits.upvalues <;> simp [Limits.admits, Frame.new]
  · cases hg
    intro l hl
    cases hl
    simp
  · exact congrArg (Nesting.openFunction · kind) hs.nesting

/-- A function is taken off. The script may be the one. -/
theorem obeys_takeFrame (kind : FunctionKind) :
    Obeys (·.Sound w.limits ⟨true, κ.openFunction kind⟩)
      (takeFrame : Compile w.settings (Function β × List Upvalue))
      (takeFrame : Compile (w.audited audit) (Function β × List Upvalue))
      fun _ => (·.Ended w.limits κ) := by
  have hpop : ∀ (s : Session β) f t, s.Sound w.limits ⟨true, κ.openFunction kind⟩ →
      (s.frames.pop >>= fun popped => return (popped.1, { s with frames := popped.2 }) :
        Except Fault (Frame β × Session β)) = .ok (f, t) →
      s.Proper w.limits t ∧ t.Ended w.limits κ := by
    intro s _ t hs hrun
    obtain ⟨f, outer, hframes⟩ := hs.exists_cons
    rw [hframes] at hrun
    cases hrun
    cases outer with
    | nil => exact ⟨.inl ⟨by rw [hframes]; exact Nat.le_refl _, rfl⟩, .inl rfl⟩
    | cons next outer =>
        have hall := hs.frames.outlines
        have hlinked := hs.frames.linked
        rw [hframes] at hall hlinked
        have hkinds : (next :: outer).map Frame.kind = κ.kinds := by
          have hkinds := congrArg Nesting.kinds hs.nesting
          rw [Session.nesting, hframes] at hkinds
          exact (List.cons.inj hkinds).2
        have hsettled : ∀ g ∈ (next :: outer).head?, g.outline.Settled := by
          intro g hg
          cases hg
          exact hall.2.1
        have hsound := hs.proper (t := { s with frames := next :: outer }) (τ := ⟨true, κ⟩) rfl
          (by rw [hframes]; exact .finish) hlinked.2 (fun _ => hsettled) <| by
            rw [Session.nesting, hkinds]
            exact congrArg (Nesting.mk · κ.kinds) (congrArg Nesting.classes hs.nesting)
        exact hsound.imp_right .inr
  have hnote : ∀ event : Event, Obeys (·.Ended w.limits κ) (note event : Compile w.settings Unit)
      (note event : Compile (w.audited audit) Unit) fun _ => (·.Ended w.limits κ) := by
    intro event
    apply obeys_change
    intro s _ t hs hrun
    cases hrun
    rcases hs with hempty | hsound
    · exact ⟨.inl ⟨by rw [hempty]; exact Nat.zero_le _, hempty⟩, .inl hempty⟩
    · exact ⟨hsound.proper_of_frames_eq rfl rfl, .inr (hsound.congr rfl rfl rfl)⟩
  have hprevious : Obeys (·.Ended w.limits κ) (previous : Compile w.settings (Token Symbol))
      (previous : Compile (w.audited audit) (Token Symbol)) fun _ => (·.Ended w.limits κ) :=
    (obeys_read _).bind fun _ => .pure fun _ h => h
  unfold takeFrame
  exact (obeys_change hpop).bind fun f => hprevious.bind fun token => (hnote _).bind fun _ =>
    .pure fun _ h => h

/-- A closure is made in a function. -/
theorem obeys_emitClosure (finished : Function β × List Upvalue) :
    Obeys (·.Ended w.limits κ) (emitClosure finished : Compile w.settings Unit)
      (emitClosure finished : Compile (w.audited audit) Unit) fun _ => (·.Sound w.limits ⟨true, κ⟩) := by
  have hmake : Obedient ⟨true, κ⟩ (emitClosure finished : Compile w.settings Unit)
      (emitClosure finished : Compile (w.audited audit) Unit) := by
    unfold emitClosure
    infer_instance
  intro s a t hs hrun
  rcases hs with hempty | hsound
  · obtain ⟨names, reader, frames, classes, events⟩ := s
    obtain rfl : frames = [] := hempty
    have hfails : Except.error Fault.emptyFrameStack = .ok (a, t) := hrun
    cases hfails
  · exact hmake.obeys hsound hrun

/-! Classes are opened and closed around the functions that are there. -/

theorem obeys_beginClass : Obeys (·.Sound w.limits ⟨settled, κ⟩)
    (beginClass : Compile w.settings Unit) (beginClass : Compile (w.audited audit) Unit)
    fun _ => (·.Sound w.limits ⟨settled, κ.openClass⟩) :=
  obeys_change fun s a t hs h => by
    cases h
    refine ⟨hs.proper_of_frames_eq rfl rfl, hs.withClasses rfl rfl ?_ rfl⟩
    exact congrArg (·.classes + 1) hs.nesting

instance : Obedient σ (markSuperclass : Compile w.settings Unit)
    (markSuperclass : Compile (w.audited audit) Unit) where
  obeys := obeys_change fun s a t hs h => by
    cases h
    refine ⟨hs.proper_of_frames_eq rfl rfl, hs.withClasses rfl rfl ?_ rfl⟩
    rw [← hs.nesting]
    exact List.length_modifyHead

theorem obeys_endClass : Obeys (·.Sound w.limits ⟨settled, κ.openClass⟩)
    (endClass : Compile w.settings ClassContext) (endClass : Compile (w.audited audit) ClassContext)
    fun _ => (·.Sound w.limits ⟨settled, κ⟩) :=
  obeys_change fun s a t hs h => by
    have hclasses := congrArg Nesting.classes hs.nesting
    change s.classes.length = κ.classes + 1 at hclasses
    split at h
    · cases h
    · rename_i hopen
      cases h
      rw [hopen] at hclasses
      exact ⟨hs.proper_of_frames_eq rfl rfl, hs.withClasses rfl rfl (Nat.succ.inj hclasses) rfl⟩

end Compile

end LoxCompiler
