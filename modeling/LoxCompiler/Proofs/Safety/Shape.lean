import LoxCompiler.Proofs.Run.Clean
import Mathlib.Data.List.Forall2

/-! # Shapes

Functions, scopes, classes and unfinished jumps are four stacks that every construct has to
leave as it found them, whatever is wrong with the program. The shape of a state says what is on
these stacks. A safe step runs to its end from every state of a shape, and ends in a state of
the same shape.
-/

set_option synthInstance.maxSize 4096

namespace LoxCompiler

variable {β : Type}

/-- A function under construction, after more was compiled inside it. -/
structure Frame.Extends (f g : Frame β) : Prop where
  depth : g.scopeDepth = f.scopeDepth
  jumps : g.openJumps = f.openJumps
  size : f.code.size ≤ g.code.size

theorem Frame.Extends.refl (f : Frame β) : f.Extends f := ⟨rfl, rfl, Nat.le_refl _⟩

theorem Frame.Extends.trans {f g h : Frame β} (hfg : f.Extends g) (hgh : g.Extends h) :
    f.Extends h :=
  ⟨hgh.depth.trans hfg.depth, hgh.jumps.trans hfg.jumps, Nat.le_trans hfg.size hgh.size⟩

/-- What is on the stacks of a compilation. -/
structure Shape (β : Type) where
  /-- The classes under construction. -/
  classes : List ClassContext
  /-- The number of scopes of the innermost function. -/
  depth : Nat
  /-- The operands of the unfinished jumps of the innermost function. -/
  jumps : List Nat
  /-- The least number of cells of the innermost function. -/
  size : Nat
  /-- The functions around the innermost one, as they were when it began. -/
  outer : Frames β

/-- The innermost function and those around it have a shape. -/
structure Frames.Shaped (σ : Shape β) (fs : Frames β) (f : Frame β) (frames : Frames β) : Prop where
  eq : fs = f :: frames
  depth : f.scopeDepth = σ.depth
  jumps : f.openJumps = σ.jumps
  size : σ.size ≤ f.code.size
  outer : List.Forall₂ Frame.Extends σ.outer frames

/-- A state has a shape. -/
structure Session.Shaped (σ : Shape β) (s : Session β) : Prop where
  classes : s.classes = σ.classes
  frames : ∃ f frames, Frames.Shaped σ s.frames f frames

namespace Session.Shaped

variable {σ : Shape β} {s t : Session β}

/-- Only the functions and the classes count. -/
theorem withClasses {classes : List ClassContext} (h : s.Shaped σ) (hclasses : t.classes = classes)
    (hframes : t.frames = s.frames) : t.Shaped { σ with classes } := by
  obtain ⟨f, frames, hf⟩ := h.frames
  exact ⟨hclasses, f, frames, hframes.trans hf.eq, hf.depth, hf.jumps, hf.size, hf.outer⟩

theorem congr (h : s.Shaped σ) (hclasses : t.classes = s.classes) (hframes : t.frames = s.frames) :
    t.Shaped σ :=
  h.withClasses (hclasses.trans h.classes) hframes

/-- Less may be said about the size of the code. -/
theorem forget {size : Nat} (h : s.Shaped { σ with size }) (hle : σ.size ≤ size) : s.Shaped σ := by
  obtain ⟨f, frames, hf⟩ := h.frames
  exact ⟨h.classes, f, frames, hf.eq, hf.depth, hf.jumps, Nat.le_trans hle hf.size, hf.outer⟩

end Session.Shaped

namespace Compile

variable {w : Width β} {α γ : Type} {n : Nat} {σ : Shape β}

/-- A step runs to its end from every state of a shape with less than some number of tokens left,
and what it answers and the shape it ends in are as given. -/
def Leads (n : Nat) (σ : Shape β) (m : Compile w.settings α) (Q : α → Shape β → Prop) : Prop :=
  ∀ ⦃s : Session β⦄, s.Shaped σ → s.reader.remaining < n →
    ∃ a t τ, m.run s = .ok (a, t) ∧ Q a τ ∧ t.Shaped τ

/-- A step leads from each shape to the same one. -/
class Safe (n : Nat) (m : Compile w.settings α) : Prop where
  runs : ∀ {σ : Shape β} {s : Session β}, s.Shaped σ → s.reader.remaining < n →
    ∃ a t, m.run s = .ok (a, t) ∧ t.Shaped σ

/-- No step makes more to read. -/
theorem remaining_le_of_run {m : Compile w.settings α} [hm : Orderly m] {s t : Session β} {a : α}
    (h : m.run s = .ok (a, t)) : t.reader.remaining ≤ s.reader.remaining :=
  hm.keeps (Reader.stable_remaining _) h (Nat.le_refl _)

theorem Safe.mono {m : Compile w.settings α} (h : Safe n m) {k : Nat} (hk : k ≤ n) : Safe k m where
  runs hs hr := h.runs hs (Nat.lt_of_lt_of_le hr hk)

namespace Leads

variable {m : Compile w.settings α} {k : α → Compile w.settings γ} {Q : α → Shape β → Prop}
  {R : γ → Shape β → Prop}

theorem bind [Orderly m] (hm : Leads n σ m Q) (hk : ∀ a τ, Q a τ → Leads n τ (k a) R) :
    Leads n σ (m >>= k) R := by
  intro s hs hn
  obtain ⟨a, t, τ, hrun, hQ, ht⟩ := hm hs hn
  obtain ⟨b, u, υ, hrest, hR, hu⟩ :=
    hk a τ hQ ht (Nat.lt_of_le_of_lt (remaining_le_of_run hrun) hn)
  exact ⟨b, u, υ, (run_bind_of_ok hrun).trans hrest, hR, hu⟩

/-- A safe step, and another one after it. -/
theorem safe [Orderly m] [hm : Safe n m] (hk : ∀ a, Leads n σ (k a) R) : Leads n σ (m >>= k) R := by
  refine bind (Q := fun _ τ => τ = σ) ?_ ?_
  · intro s hs hn
    obtain ⟨a, t, hrun, ht⟩ := hm.runs hs hn
    exact ⟨a, t, σ, hrun, rfl, ht⟩
  · rintro a _ rfl
    exact hk a

/-- A step that tells something and stays in its shape. -/
theorem known [Orderly m] {P : α → Prop} (hm : Leads n σ m fun a τ => P a ∧ τ = σ)
    (hk : ∀ a, P a → Leads n σ (k a) R) : Leads n σ (m >>= k) R := by
  refine hm.bind ?_
  rintro a _ ⟨ha, rfl⟩
  exact hk a ha

/-- A step that leads to one shape. -/
theorem next [Orderly m] {τ : Shape β} (hm : Leads n σ m fun _ υ => υ = τ)
    (hk : ∀ a, Leads n τ (k a) R) : Leads n σ (m >>= k) R := by
  refine hm.bind ?_
  rintro a _ rfl
  exact hk a

theorem forget {size : Nat} (hle : σ.size ≤ size) (h : Leads n σ m Q) :
    Leads n { σ with size } m Q :=
  fun _ hs hn => h (hs.forget hle) hn

protected theorem pure {a : α} (h : Q a σ) : Leads n σ (pure a : Compile w.settings α) Q :=
  fun s hs _ => ⟨a, s, σ, rfl, h, hs⟩

theorem of_safe [hm : Safe n m] (hQ : ∀ a, Q a σ) : Leads n σ m Q := by
  intro s hs hn
  obtain ⟨a, t, hrun, ht⟩ := hm.runs hs hn
  exact ⟨a, t, σ, hrun, hQ a, ht⟩

theorem cond {p : Prop} [Decidable p] {m' : Compile w.settings α} (hm : p → Leads n σ m Q)
    (hm' : ¬ p → Leads n σ m' Q) : Leads n σ (if p then m else m') Q := by
  split
  · exact hm ‹_›
  · exact hm' ‹_›

end Leads

/-- A step that leads from each shape to the same one is safe. -/
theorem Safe.of_leads {m : Compile w.settings α}
    (h : ∀ σ : Shape β, Leads n σ m fun _ τ => τ = σ) : Safe n m where
  runs {σ s} hs hn := by
    obtain ⟨a, t, _, hrun, rfl, ht⟩ := h σ hs hn
    exact ⟨a, t, hrun, ht⟩

/-! ## Building blocks -/

instance (a : α) : Safe n (pure a : Compile w.settings α) where
  runs {_ s} hs _ := ⟨a, s, rfl, hs⟩

instance (m : Compile w.settings α) (k : α → Compile w.settings γ) [Orderly m] [hm : Safe n m]
    [hk : ∀ a, Safe n (k a)] : Safe n (m >>= k) where
  runs hs hn := by
    obtain ⟨a, t, hrun, ht⟩ := hm.runs hs hn
    obtain ⟨b, u, hrest, hu⟩ := (hk a).runs ht (Nat.lt_of_le_of_lt (remaining_le_of_run hrun) hn)
    exact ⟨b, u, (run_bind_of_ok hrun).trans hrest, hu⟩

/-- A step that goes on by cases on what it has read. -/
theorem Safe.bind {m : Compile w.settings α} {k : α → Compile w.settings γ} [Orderly m] [Safe n m]
    (hk : ∀ a, Safe n (k a)) : Safe n (m >>= k) :=
  inferInstance

instance {p : Prop} [Decidable p] (m k : Compile w.settings α) [hm : Safe n m] [hk : Safe n k] :
    Safe n (if p then m else k) := by
  split <;> assumption

instance (m : Option γ) (k : γ → Compile w.settings Unit) [hk : ∀ a, Safe n (k a)] :
    Safe n (m.forM k) := by
  cases m with
  | none => exact inferInstanceAs (Safe n (pure () : Compile w.settings Unit))
  | some a => exact hk a

instance safe_forM (as : List γ) (k : γ → Compile w.settings Unit) [∀ a, Orderly (k a)]
    [hk : ∀ a, Safe n (k a)] : Safe n (as.forM k) := by
  induction as with
  | nil => exact inferInstanceAs (Safe n (pure () : Compile w.settings Unit))
  | cons a as ih => exact inferInstanceAs (Safe n (k a >>= fun _ => as.forM k))

instance : Safe n (read : Compile w.settings (Session β)) where
  runs {_ s} hs _ := ⟨s, s, rfl, hs⟩

/-- A step that leaves the functions and classes alone. -/
theorem safe_of_run {m : Compile w.settings α}
    (h : ∀ s, ∃ a t, m.run s = .ok (a, t) ∧ t.classes = s.classes ∧ t.frames = s.frames) :
    Safe n m where
  runs {_ s} hs _ := by
    obtain ⟨a, t, hrun, hclasses, hframes⟩ := h s
    exact ⟨a, t, hrun, hs.congr hclasses hframes⟩

theorem safe_changeReader (f : Reader → α × Reader) :
    Safe n (changeReader f : Compile w.settings α) :=
  safe_of_run fun _ => ⟨_, _, rfl, rfl, rfl⟩

theorem safe_modifyReader (f : Reader → Reader) :
    Safe n (modifyReader f : Compile w.settings Unit) :=
  safe_changeReader _

instance : Safe n (startExpression : Compile w.settings Unit) :=
  safe_of_run fun s => ⟨(), s, rfl, rfl, rfl⟩

instance (quantity : Quantity) : Safe n (measure quantity : Compile w.settings Unit) :=
  safe_of_run fun s => ⟨(), s, rfl, rfl, rfl⟩

instance : Safe n (previous : Compile w.settings _) :=
  inferInstanceAs (Safe n (do let s ← read; pure s.reader.previous))

instance : Safe n (current : Compile w.settings _) :=
  inferInstanceAs (Safe n (do let s ← read; pure s.reader.current))

instance : Safe n (advance : Compile w.settings Unit) := safe_modifyReader _

instance (kind : TokenKind Symbol) : Safe n (check kind : Compile w.settings Bool) :=
  inferInstanceAs (Safe n (do let s ← read; pure (s.reader.check kind)))

instance (kind : TokenKind Symbol) : Safe n (accept kind : Compile w.settings Bool) :=
  safe_changeReader _

instance (kind : TokenKind Symbol) (message : String) :
    Safe n (consume kind message : Compile w.settings Unit) := safe_modifyReader _

instance (message : String) : Safe n (consumeIdentifier message : Compile w.settings Symbol) :=
  safe_changeReader _

instance (problem : Diagnostic.Problem) : Safe n (report problem : Compile w.settings Unit) :=
  safe_modifyReader _

instance (problem : Diagnostic.Problem) :
    Safe n (reportCurrent problem : Compile w.settings Unit) := safe_modifyReader _

instance (event : Event) : Safe n (note event : Compile w.settings Unit) :=
  safe_of_run fun _ => ⟨_, _, rfl, rfl, rfl⟩

instance : Safe n (recover : Compile w.settings Unit) := by
  have : Safe n (changeReader (·.synchronize) : Compile w.settings Nat) := safe_changeReader _
  unfold recover
  infer_instance

/-! ## The innermost function -/

instance : Safe n (frame : Compile w.settings (Frame β)) where
  runs {_ s} hs _ := by
    obtain ⟨f, frames, hf⟩ := hs.frames
    exact ⟨f, s, run_frame hf.eq, hs⟩

/-- A change of the innermost function leads to the shape that the changed function has. -/
theorem leads_modifyFrame {g : Frame β → Frame β} (depth : Nat) (jumps : List Nat) (size : Nat)
    (hg : ∀ f : Frame β, f.scopeDepth = σ.depth → f.openJumps = σ.jumps → σ.size ≤ f.code.size →
      (g f).scopeDepth = depth ∧ (g f).openJumps = jumps ∧ size ≤ (g f).code.size) :
    Leads n σ (modifyFrame g : Compile w.settings Unit) fun _ τ =>
      τ = { σ with depth, jumps, size } := by
  intro s hs _
  obtain ⟨f, frames, hf⟩ := hs.frames
  obtain ⟨hdepth, hjumps, hsize⟩ := hg f hf.depth hf.jumps hf.size
  exact ⟨(), { s with frames := g f :: frames }, _, run_modifyFrame g hf.eq, rfl,
    hs.classes, g f, frames, rfl, hdepth, hjumps, hsize, hf.outer⟩

/-- A change that only adds to the innermost function is safe. -/
theorem safe_modifyFrame {g : Frame β → Frame β} (hg : ∀ f : Frame β, f.Extends (g f)) :
    Safe n (modifyFrame g : Compile w.settings Unit) :=
  .of_leads fun σ => leads_modifyFrame σ.depth σ.jumps σ.size
    fun f hdepth hjumps hsize => ⟨(hg f).depth.trans hdepth, (hg f).jumps.trans hjumps,
      Nat.le_trans hsize (hg f).size⟩

instance (cell : β) (line : Nat) :
    Safe n (modifyFrame (·.write cell line) : Compile w.settings Unit) :=
  safe_modifyFrame fun f => ⟨rfl, rfl, by simp [Frame.write]⟩

instance (value : Constant β) :
    Safe n (modifyFrame (·.addConstant value) : Compile w.settings Unit) :=
  safe_modifyFrame fun _ => ⟨rfl, rfl, Nat.le_refl _⟩

instance (arity : Nat) :
    Safe n (modifyFrame (fun frame => { frame with arity }) : Compile w.settings Unit) :=
  safe_modifyFrame fun _ => ⟨rfl, rfl, Nat.le_refl _⟩

instance : Safe n (codeSize : Compile w.settings Nat) := by unfold codeSize; infer_instance

instance : Safe n (constantCount : Compile w.settings Nat) := by
  unfold constantCount
  infer_instance

instance (value : Nat) : Safe n (emitCell value : Compile w.settings Unit) := by
  unfold emitCell
  infer_instance

instance (op : Opcode) : Safe n (emit op : Compile w.settings Unit) := by
  unfold emit
  infer_instance

instance (op : Opcode) (operand : Nat) : Safe n (emitWith op operand : Compile w.settings Unit) := by
  unfold emitWith
  infer_instance

instance (value : Constant β) : Safe n (addConstant value : Compile w.settings Nat) := by
  unfold addConstant
  infer_instance

instance (name : Symbol) : Safe n (addName name : Compile w.settings Nat) := by
  unfold addName
  infer_instance

instance (value : Constant β) : Safe n (emitConstant value : Compile w.settings Unit) := by
  unfold emitConstant
  infer_instance

instance (problem : Diagnostic.Problem) (distance : Nat) :
    Safe n (fitDistance problem distance : Compile w.settings Nat) := by
  unfold fitDistance
  infer_instance

instance : Safe n (emitReturn : Compile w.settings Unit) := by unfold emitReturn; infer_instance

end Compile

end LoxCompiler
