import LoxCompiler.Proofs.Run.Still
import LoxCompiler.Proofs.Safety.Shape

/-! # Steps on the stacks

The steps that begin and end scopes, functions, classes and jumps. Each has the shape it needs
and the shape it leads to. Nothing is taken from an empty stack: a construct ends only what it
began itself.
-/

set_option synthInstance.maxSize 4096

namespace LoxCompiler

variable {β : Type}

/-! ## Variables of functions under construction -/

theorem Frame.extends_markInitialized (f : Frame β) : f.Extends f.markInitialized := by
  unfold Frame.markInitialized
  split
  · exact .refl f
  · split
    · exact ⟨rfl, rfl, Nat.le_refl _⟩
    · exact .refl f

theorem Frames.extends_trans {fs gs hs : Frames β} (hfg : List.Forall₂ Frame.Extends fs gs)
    (hgh : List.Forall₂ Frame.Extends gs hs) : List.Forall₂ Frame.Extends fs hs := by
  induction hfg generalizing hs with
  | nil => exact hgh
  | cons hfg _ ih =>
      cases hgh with
      | cons hgh hrest => exact .cons (hfg.trans hgh) (ih hrest)

theorem Frames.extends_captureInnermost (limits : Limits) (f : Frame β) (outer : Frames β)
    (upvalue : Upvalue) : ∃ g, (Frames.captureInnermost limits f outer upvalue).1 = g :: outer ∧
      f.Extends g := by
  unfold Frames.captureInnermost Frame.addUpvalue
  split
  · rename_i g index h
    split at h
    · cases h
      exact ⟨f, rfl, .refl f⟩
    · split at h
      · cases h
        exact ⟨_, rfl, rfl, rfl, Nat.le_refl _⟩
      · cases h
  · exact ⟨f, rfl, .refl f⟩

/-- Capturing a variable changes no function in its shape. -/
theorem Frames.extends_resolveUpvalue (limits : Limits) (name : Symbol) (fs : Frames β) :
    List.Forall₂ Frame.Extends fs (fs.resolveUpvalue limits name).1 := by
  have hrefl : ∀ fs : Frames β, List.Forall₂ Frame.Extends fs fs :=
    fun fs => List.forall₂_same.mpr fun f _ => .refl f
  fun_induction Frames.resolveUpvalue limits name fs with
  | case1 => exact hrefl _
  | case2 => exact hrefl _
  | case3 f next outer slot hlocal =>
      obtain ⟨g, hg, hfg⟩ := Frames.extends_captureInnermost limits f
        (next.captureLocal name :: outer) ⟨true, slot⟩
      rw [hg]
      exact .cons hfg (.cons ⟨rfl, rfl, Nat.le_refl _⟩ (hrefl outer))
  | case4 => exact hrefl _
  | case5 f next outer hlocal outer' index hinner ih =>
      obtain ⟨g, hg, hfg⟩ := Frames.extends_captureInnermost limits f outer' ⟨false, index⟩
      rw [hg]
      rw [hinner] at ih
      exact .cons hfg ih
  | case6 f next outer hlocal outer' answer hanswer hinner ih =>
      rw [hinner] at ih
      exact .cons (.refl f) ih

namespace Compile

variable {w : Width β} {n : Nat} {σ : Shape β}

/-! ## Jumps -/

/-- What is known of the innermost function. -/
theorem leads_frame : Leads n σ (frame : Compile w.settings (Frame β)) fun f τ =>
    (f.scopeDepth = σ.depth ∧ f.openJumps = σ.jumps ∧ σ.size ≤ f.code.size) ∧ τ = σ := by
  intro s hs _
  obtain ⟨f, frames, hf⟩ := hs.frames
  exact ⟨f, s, σ, run_frame hf.eq, ⟨⟨hf.depth, hf.jumps, hf.size⟩, rfl⟩, hs⟩

/-- The size of the code is known after it was asked for. -/
theorem leads_codeSize : Leads n σ (codeSize : Compile w.settings Nat) fun a τ =>
    σ.size ≤ a ∧ τ = { σ with size := a } := by
  intro s hs _
  obtain ⟨f, frames, hf⟩ := hs.frames
  exact ⟨f.code.size, s, { σ with size := f.code.size }, run_bind_of_ok (run_frame hf.eq),
    ⟨hf.size, rfl⟩, hs.classes, f, frames, hf.eq, hf.depth, hf.jumps, Nat.le_refl _, hf.outer⟩

theorem leads_emitCell (value : Nat) : Leads n σ (emitCell value : Compile w.settings Unit)
    fun _ τ => τ = { σ with size := σ.size + 1 } := by
  unfold emitCell
  refine .safe fun token => leads_modifyFrame σ.depth σ.jumps (σ.size + 1)
    fun f hdepth hjumps hsize => ⟨hdepth, hjumps, ?_⟩
  simp only [Frame.write, Array.size_push]
  omega

/-- A new jump is unfinished, and its operand is inside the code. -/
theorem leads_emitJump (op : Opcode) : Leads n σ (emitJump op : Compile w.settings Nat) fun a τ =>
    σ.size ≤ a ∧ τ = { σ with jumps := a :: σ.jumps, size := a + 2 } := by
  unfold emitJump
  refine .safe fun _ => leads_codeSize.bind ?_
  rintro a _ ⟨ha, rfl⟩
  refine (leads_emitCell _).next fun _ => (leads_emitCell _).next fun _ => ?_
  refine (leads_modifyFrame σ.depth (a :: σ.jumps) (a + 2) ?_).next
    fun _ => .pure ⟨ha, rfl⟩
  intro f hdepth hjumps hsize
  exact ⟨hdepth, congrArg (a :: ·) hjumps, hsize⟩

/-- An unfinished jump whose operand is inside the code can be completed. -/
theorem leads_patchJump {operand : Nat} (jumps : List Nat) (size : Nat) (hmem : operand ∈ σ.jumps)
    (hinside : operand + 2 ≤ σ.size) (hjumps : σ.jumps.erase operand = jumps)
    (hsize : size ≤ σ.size) :
    Leads n σ (patchJump operand : Compile w.settings Unit) fun _ τ =>
      τ = { σ with jumps, size } := by
  unfold patchJump
  refine leads_frame.known fun f hf => ?_
  rw [hf.2.1]
  refine .cond (fun h => absurd h (by simp [hmem])) fun _ => ?_
  refine leads_codeSize.bind ?_
  rintro more _ ⟨hmore, rfl⟩
  refine .cond (fun h => absurd h (by omega)) fun _ => .safe fun _ => .safe fun distance => ?_
  refine leads_modifyFrame σ.depth jumps size ?_
  intro f hdepth hopen hle
  refine ⟨hdepth, (congrArg (List.erase · operand) hopen).trans hjumps, ?_⟩
  simp only [Frame.closeJump, Array.size_setIfInBounds]
  exact Nat.le_trans (Nat.le_trans hsize hmore) hle

/-- A loop may start inside the code. -/
theorem leads_emitLoop {start : Nat} (hstart : start ≤ σ.size) :
    Leads n σ (emitLoop start : Compile w.settings Unit) fun _ τ => τ = σ := by
  unfold emitLoop
  refine .safe fun _ => leads_codeSize.bind ?_
  rintro size _ ⟨hsize, rfl⟩
  exact .cond (fun h => absurd h (by omega)) fun _ => .forget hsize (.of_safe fun _ => rfl)

/-! ## Scopes -/

theorem leads_beginScope : Leads n σ (beginScope : Compile w.settings Unit) fun _ τ =>
    τ = { σ with depth := σ.depth + 1 } :=
  leads_modifyFrame (σ.depth + 1) σ.jumps σ.size fun _ hdepth hjumps hsize =>
    ⟨congrArg (· + 1) hdepth, hjumps, hsize⟩

/-- A scope can be left if there is one. -/
theorem leads_endScope {depth : Nat} (hdepth : σ.depth = depth + 1) :
    Leads n σ (endScope : Compile w.settings Unit) fun _ τ => τ = { σ with depth } := by
  unfold endScope
  refine leads_frame.known fun f hf => ?_
  rw [hf.1, hdepth]
  dsimp only
  refine (leads_modifyFrame depth σ.jumps σ.size ?_).next
    fun _ => .of_safe fun _ => rfl
  exact fun f _ hjumps hsize => ⟨rfl, hjumps, hsize⟩

/-! ## Functions -/

theorem leads_beginFrame (kind : FunctionKind) (name : Option Symbol) :
    Leads n σ (beginFrame kind name : Compile w.settings Unit) fun _ τ =>
      ∃ f : Frame β, f.scopeDepth = σ.depth ∧ f.openJumps = σ.jumps ∧ σ.size ≤ f.code.size ∧
        τ = ⟨σ.classes, 0, [], 0, f :: σ.outer⟩ := by
  intro s hs _
  obtain ⟨f, frames, hf⟩ := hs.frames
  refine ⟨(), _, _, rfl, ⟨f, hf.depth, hf.jumps, hf.size, rfl⟩, hs.classes, _, _, rfl, rfl, rfl,
    Nat.zero_le _, ?_⟩
  rw [hf.eq]
  exact .cons (.refl f) hf.outer

/-- A function can be finished if there is one around it. -/
theorem leads_takeFrame {f : Frame β} {outer : Frames β} (houter : σ.outer = f :: outer) :
    Leads n σ (takeFrame : Compile w.settings (Function β × List Upvalue)) fun _ τ =>
      τ = ⟨σ.classes, f.scopeDepth, f.openJumps, f.code.size, outer⟩ := by
  intro s hs _
  obtain ⟨g, frames, hf⟩ := hs.frames
  obtain ⟨events, hrun⟩ := run_takeFrame (w := w) hf.eq
  refine ⟨_, _, _, hrun, rfl, hs.classes, ?_⟩
  have hrest := hf.outer
  rw [houter] at hrest
  cases hrest with
  | cons hfg hrest => exact ⟨_, _, rfl, hfg.depth, hfg.jumps, hfg.size, hrest⟩

/-! ## Classes -/

theorem leads_beginClass : Leads n σ (beginClass : Compile w.settings Unit) fun _ τ =>
    τ = { σ with classes := ⟨false⟩ :: σ.classes } := by
  intro s hs _
  exact ⟨(), _, _, rfl, rfl, hs.withClasses (congrArg (⟨false⟩ :: ·) hs.classes) rfl⟩

theorem leads_markSuperclass {context : ClassContext} {classes : List ClassContext}
    (hclasses : σ.classes = context :: classes) :
    Leads n σ (markSuperclass : Compile w.settings Unit) fun _ τ =>
      τ = { σ with classes := ⟨true⟩ :: classes } := by
  intro s hs _
  refine ⟨(), _, _, rfl, rfl, hs.withClasses ?_ rfl⟩
  show s.classes.modifyHead _ = _
  rw [hs.classes, hclasses]
  rfl

/-- A class can be left if there is one. -/
theorem leads_endClass {context : ClassContext} {classes : List ClassContext}
    (hclasses : σ.classes = context :: classes) :
    Leads n σ (endClass : Compile w.settings ClassContext) fun a τ =>
      a = context ∧ τ = { σ with classes } := by
  intro s hs _
  exact ⟨context, { s with classes }, _, run_endClass (hs.classes.trans hclasses), ⟨rfl, rfl⟩,
    hs.withClasses rfl rfl⟩

/-! ## Variables -/

instance (name : Symbol) : Safe n (addLocal name : Compile w.settings Unit) := by
  refine .of_leads fun σ => ?_
  rw [addLocal_eq]
  refine leads_frame.known fun f hf => ?_
  rw [measure_bind]
  unfold Frame.addLocal
  split
  · exact leads_modifyFrame σ.depth σ.jumps σ.size
      fun _ _ _ _ => hf
  · exact .of_safe (m := report .tooManyLocals) fun _ => rfl

instance : Safe n (markInitialized : Compile w.settings Unit) :=
  safe_modifyFrame Frame.extends_markInitialized

instance (name : Symbol) : Safe n (declareVariable name : Compile w.settings Unit) := by
  unfold declareVariable
  infer_instance

instance (message : String) : Safe n (declaredName message : Compile w.settings Nat) := by
  unfold declaredName
  infer_instance

instance (global : Nat) : Safe n (defineVariable global : Compile w.settings Unit) := by
  unfold defineVariable
  infer_instance

instance (answer : Option (Nat × Bool)) :
    Safe n (localSlot answer : Compile w.settings (Option Nat)) := by
  unfold localSlot
  split <;> infer_instance

instance (name : Symbol) : Safe n (resolveLocal name : Compile w.settings (Option Nat)) := by
  rw [resolveLocal_eq]
  infer_instance

instance (name : Symbol) : Safe n
    (capture name : Compile w.settings (Except Diagnostic.Problem (Option Nat))) where
  runs {σ s} hs _ := by
    obtain ⟨f, frames, hf⟩ := hs.frames
    have hall := Frames.extends_resolveUpvalue w.limits name s.frames
    refine ⟨_, _, rfl, hs.classes, ?_⟩
    show ∃ f frames, Frames.Shaped σ (s.frames.resolveUpvalue w.limits name).1 f frames
    rw [hf.eq] at hall ⊢
    cases hresult : (Frames.resolveUpvalue w.limits name (f :: frames)).1 with
    | nil =>
        rw [hresult] at hall
        cases hall
    | cons g rest =>
        rw [hresult] at hall
        cases hall with
        | cons hfg hrest =>
            exact ⟨g, rest, rfl, hfg.depth.trans hf.depth, hfg.jumps.trans hf.jumps,
              Nat.le_trans hf.size hfg.size, Frames.extends_trans hf.outer hrest⟩

instance (name : Symbol) : Safe n
    (captureVariable name : Compile w.settings (Except Diagnostic.Problem (Option Nat))) := by
  rw [captureVariable_eq]
  infer_instance

instance (answer : Except Diagnostic.Problem (Option Nat)) :
    Safe n (upvalueIndex answer : Compile w.settings (Option Nat)) := by
  unfold upvalueIndex
  split <;> infer_instance

instance (name : Symbol) : Safe n (resolveUpvalue name : Compile w.settings (Option Nat)) := by
  rw [resolveUpvalue_eq]
  infer_instance

instance (name : Symbol) (index : Option Nat) :
    Safe n (accessOuter name index : Compile w.settings Access) := by
  unfold accessOuter
  split <;> infer_instance

instance (name : Symbol) (slot : Option Nat) :
    Safe n (accessLocal name slot : Compile w.settings Access) := by
  unfold accessLocal
  split <;> infer_instance

instance (name : Symbol) : Safe n (access name : Compile w.settings Access) := by
  rw [access_eq]
  infer_instance

instance (name : Symbol) : Safe n (loadVariable name : Compile w.settings Unit) := by
  unfold loadVariable
  infer_instance

end Compile

end LoxCompiler
