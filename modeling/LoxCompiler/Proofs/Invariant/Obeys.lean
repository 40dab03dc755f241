import LoxCompiler.Proofs.Invariant.Frames

/-! # Steps under an audit

A step is run twice, without an audit and under one that allows what the invariant of the functions
under construction says. If the first run ends, the second one ends in the same way, and the
invariant still holds. A state is settled if the newest local of the innermost function may be read;
expressions are compiled in states of both kinds, and what declares variables starts and ends in
settled ones. An expression starts only where as many classes as methods are open.
-/

set_option synthInstance.maxSize 4096

namespace LoxCompiler

variable {β : Type}

/-- Code of some width, under an audit. -/
abbrev Width.audited (w : Width β) (audit : Audit β) : Settings β :=
  ⟨w, some audit, fun _ => true⟩

/-- Whether the first slot of a function is the receiver. -/
def FunctionKind.isMethod : FunctionKind → Bool
  | .method | .initializer => true
  | .function | .script => false

/-- How many classes are open, and which functions, innermost first. -/
structure Nesting where
  classes : Nat
  kinds : List FunctionKind

namespace Nesting

/-- As many classes as methods are open: one class around each method, and no class that is not
around the methods of it. -/
class Balanced (κ : Nesting) : Prop where
  classes_eq : κ.classes = κ.kinds.countP FunctionKind.isMethod

/-- Inside the body of one more class. -/
def openClass (κ : Nesting) : Nesting := ⟨κ.classes + 1, κ.kinds⟩

/-- Inside one more function. -/
def openFunction (κ : Nesting) (kind : FunctionKind) : Nesting := ⟨κ.classes, kind :: κ.kinds⟩

instance (κ : Nesting) [hκ : κ.Balanced] : (κ.openFunction .function).Balanced where
  classes_eq := hκ.classes_eq

/-- A method of one more class. -/
theorem Balanced.method {κ : Nesting} (hκ : κ.Balanced) (kind : FunctionKind)
    (hkind : kind.isMethod = true) : (κ.openClass.openFunction kind).Balanced where
  classes_eq := by
    show κ.classes + 1 = (kind :: κ.kinds).countP FunctionKind.isMethod
    rw [List.countP_cons_of_pos hkind, hκ.classes_eq]

end Nesting

/-- What is known of a state between two steps: whether it is settled, and what is open. -/
structure Stage where
  settled : Bool
  nesting : Nesting

namespace Session

/-- What is open in a state. -/
def nesting (s : Session β) : Nesting := ⟨s.classes.length, s.frames.map Frame.kind⟩

/-- The invariant of the functions under construction. -/
structure Sound (limits : Limits) (σ : Stage) (s : Session β) : Prop where
  frames : Frames.Sound limits s.names s.frames
  settled : σ.settled = true → ∀ f ∈ s.frames.head?, f.outline.Settled
  nesting : s.nesting = σ.nesting

/-- How a state may change: the invariant holds before and after it, and the locals move in one of
the known ways. The script is taken off at last, and then there is no function any more. -/
def Proper (limits : Limits) (s t : Session β) : Prop :=
  s.frames.length ≤ 1 ∧ t.frames = [] ∨
    t.names = s.names ∧ Frames.Sound limits s.names s.frames ∧
      Frames.Sound limits t.names t.frames ∧
      Outline.Moves limits s.names (s.frames.map Frame.outline) (t.frames.map Frame.outline)

variable {limits : Limits} {σ : Stage} {κ : Nesting} {settled : Bool} {s t : Session β}

/-- What is open after a change of the classes. -/
theorem Sound.withClasses (h : s.Sound limits σ) (hnames : t.names = s.names)
    (hframes : t.frames = s.frames) (hclasses : t.classes.length = κ.classes)
    (hkinds : κ.kinds = σ.nesting.kinds) : t.Sound limits ⟨σ.settled, κ⟩ := by
  obtain ⟨hsound, hsettled, hnesting⟩ := h
  rw [← hnames, ← hframes] at hsound
  rw [← hframes] at hsettled
  refine ⟨hsound, hsettled, ?_⟩
  rw [Session.nesting, hclasses, hframes]
  exact congrArg _ ((congrArg Nesting.kinds hnesting).trans hkinds.symm)

theorem Sound.congr (h : s.Sound limits σ) (hnames : t.names = s.names)
    (hframes : t.frames = s.frames) (hclasses : t.classes = s.classes) : t.Sound limits σ :=
  h.withClasses hnames hframes (hclasses ▸ congrArg Nesting.classes h.nesting) rfl

theorem Sound.forget (h : s.Sound limits ⟨settled, κ⟩) : s.Sound limits ⟨false, κ⟩ :=
  ⟨h.frames, nofun, h.nesting⟩

/-- A change of anything but the functions is proper. -/
theorem Sound.proper_of_frames_eq (h : s.Sound limits σ) (hnames : t.names = s.names)
    (hframes : t.frames = s.frames) : s.Proper limits t := by
  refine .inr ⟨hnames, h.frames, ?_, ?_⟩
  · rw [hnames, hframes]
    exact h.frames
  · rw [hframes]
    exact .stay

/-- There is an innermost function. -/
theorem Sound.exists_cons (h : s.Sound limits σ) : ∃ f outer, s.frames = f :: outer := by
  cases hframes : s.frames with
  | nil =>
      have hall := h.frames.outlines
      rw [hframes] at hall
      exact hall.elim
  | cons f outer => exact ⟨f, outer, rfl⟩

end Session

/-- An audit that allows all proper changes and all expressions. -/
class Audit.Lenient (limits : Limits) (audit : Audit β) : Prop where
  change : ∀ {s t : Session β}, s.Proper limits t → audit.change s t = true
  expression : ∀ s, audit.expression s = true

/-- An audit that allows all proper changes, and expressions where as many classes as methods are
open. -/
class Audit.Tolerant (limits : Limits) (audit : Audit β) : Prop where
  change : ∀ {s t : Session β}, s.Proper limits t → audit.change s t = true
  expression : ∀ {s : Session β} {σ : Stage}, σ.nesting.Balanced → s.Sound limits σ →
    audit.expression s = true

instance {limits : Limits} {audit : Audit β} [h : audit.Lenient limits] : audit.Tolerant limits where
  change := h.change
  expression _ _ := h.expression _

namespace Compile

variable {w : Width β} {audit : Audit β} {α γ : Type} {σ τ : Stage}

/-- From certain states, what a step does without an audit a step under the audit does too, and then
something holds of the answer and the last state. -/
def Obeys (P : Session β → Prop) (m : Compile w.settings α) (m' : Compile (w.audited audit) α)
    (Q : α → Session β → Prop) : Prop :=
  ∀ ⦃s a t⦄, P s → m.run s = .ok (a, t) → m'.run s = .ok (a, t) ∧ Q a t

/-- A step that keeps the invariant, and that the audit does not stop. -/
class Obedient (σ : Stage) (m : Compile w.settings α) (m' : Compile (w.audited audit) α) : Prop where
  obeys : Obeys (·.Sound w.limits σ) m m' fun _ => (·.Sound w.limits σ)

namespace Obeys

variable {m : Compile w.settings α} {m' : Compile (w.audited audit) α}
  {k : α → Compile w.settings γ} {k' : α → Compile (w.audited audit) γ}
  {P R : Session β → Prop} {Q : α → Session β → Prop} {S : γ → Session β → Prop}

theorem bind (hm : Obeys P m m' Q) (hk : ∀ a, Obeys (Q a) (k a) (k' a) S) :
    Obeys P (m >>= k) (m' >>= k') S := by
  intro s b u hs h
  obtain ⟨a, t, hrun, hrest⟩ := ok_of_run_bind h
  obtain ⟨hrun', ht⟩ := hm hs hrun
  rw [run_bind_of_ok hrun']
  exact hk a ht hrest

/-- A step that keeps the invariant, and another one after it. -/
theorem next [hm : Obedient σ m m'] (hk : ∀ a, Obeys (·.Sound w.limits σ) (k a) (k' a) S) :
    Obeys (·.Sound w.limits σ) (m >>= k) (m' >>= k') S :=
  hm.obeys.bind hk

theorem mono {P' : Session β → Prop} {Q' : α → Session β → Prop} (h : Obeys P m m' Q)
    (hP : ∀ s, P' s → P s) (hQ : ∀ a t, Q a t → Q' a t) : Obeys P' m m' Q' := by
  intro s a t hs hrun
  obtain ⟨hrun', ht⟩ := h (hP s hs) hrun
  exact ⟨hrun', hQ a t ht⟩

theorem cond {p : Prop} [Decidable p] {n : Compile w.settings α} {n' : Compile (w.audited audit) α}
    (hm : p → Obeys P m m' Q) (hn : ¬ p → Obeys P n n' Q) :
    Obeys P (if p then m else n) (if p then m' else n') Q := by
  split
  · exact hm ‹_›
  · exact hn ‹_›

protected theorem pure {a : α} (h : ∀ s, P s → Q a s) :
    Obeys P (pure a : Compile w.settings α) (pure a : Compile (w.audited audit) α) Q := by
  intro s b t hs hrun
  rw [run_pure] at hrun
  cases hrun
  exact ⟨rfl, h s hs⟩

end Obeys

/-- A change of the state that is proper. -/
theorem obeys_change [htolerant : audit.Tolerant w.limits] {P : Session β → Prop}
    {Q : α → Session β → Prop} {f : Session β → Except Fault (α × Session β)}
    (h : ∀ s a t, P s → f s = .ok (a, t) → s.Proper w.limits t ∧ Q a t) :
    Obeys P (change f : Compile w.settings α) (change f : Compile (w.audited audit) α) Q := by
  intro s a t hs hrun
  have hf : f s = .ok (a, t) := ok_of_run_change hrun
  obtain ⟨hproper, ht⟩ := h s a t hs hf
  refine ⟨?_, ht⟩
  unfold run change
  dsimp only
  rw [hf]
  dsimp only
  rw [if_pos (htolerant.change hproper)]

/-! ## Building blocks -/

instance obedient_pure (a : α) :
    Obedient σ (pure a : Compile w.settings α) (pure a : Compile (w.audited audit) α) :=
  ⟨.pure fun _ h => h⟩

instance (m : Compile w.settings α) (m' : Compile (w.audited audit) α)
    (k : α → Compile w.settings γ) (k' : α → Compile (w.audited audit) γ) [hm : Obedient σ m m']
    [hk : ∀ a, Obedient σ (k a) (k' a)] : Obedient σ (m >>= k) (m' >>= k') :=
  ⟨hm.obeys.bind fun a => (hk a).obeys⟩

/-- A step that goes on by cases on what it has read. -/
theorem Obedient.bind {m : Compile w.settings α} {m' : Compile (w.audited audit) α}
    {k : α → Compile w.settings γ} {k' : α → Compile (w.audited audit) γ} [Obedient σ m m']
    (hk : ∀ a, Obedient σ (k a) (k' a)) : Obedient σ (m >>= k) (m' >>= k') :=
  inferInstance

instance {p : Prop} [Decidable p] (m n : Compile w.settings α) (m' n' : Compile (w.audited audit) α)
    [hm : Obedient σ m m'] [hn : Obedient σ n n'] :
    Obedient σ (if p then m else n) (if p then m' else n') :=
  ⟨.cond (fun _ => hm.obeys) fun _ => hn.obeys⟩

instance (o : Option γ) (k : γ → Compile w.settings Unit) (k' : γ → Compile (w.audited audit) Unit)
    [hk : ∀ a, Obedient σ (k a) (k' a)] : Obedient σ (o.forM k) (o.forM k') := by
  cases o with
  | none => exact obedient_pure ()
  | some a => exact hk a

instance obedient_forM (as : List γ) (k : γ → Compile w.settings Unit)
    (k' : γ → Compile (w.audited audit) Unit) [hk : ∀ a, Obedient σ (k a) (k' a)] :
    Obedient σ (as.forM k) (as.forM k') := by
  induction as with
  | nil => exact obedient_pure ()
  | cons a as ih =>
      exact inferInstanceAs (Obedient σ (k a >>= fun _ => as.forM k) (k' a >>= fun _ => as.forM k'))

theorem obeys_read (P : Session β → Prop) : Obeys P (read : Compile w.settings (Session β))
    (read : Compile (w.audited audit) (Session β)) fun _ => P := by
  intro s _ _ hs hrun
  rw [run_read] at hrun
  cases hrun
  exact ⟨rfl, hs⟩

instance : Obedient σ (read : Compile w.settings (Session β))
    (read : Compile (w.audited audit) (Session β)) := ⟨obeys_read _⟩

instance obedient_throw (fault : Fault) : Obedient σ (throw fault : Compile w.settings α)
    (throw fault : Compile (w.audited audit) α) where
  obeys _ _ _ _ hrun := by
    rw [run_throw] at hrun
    cases hrun

instance (condition : Compile w.settings Bool) (condition' : Compile (w.audited audit) Bool)
    (step : Compile w.settings Unit) (step' : Compile (w.audited audit) Unit) (budget : Nat)
    [Obedient σ condition condition'] [Obedient σ step step'] :
    Obedient σ (repeatWhile condition step budget) (repeatWhile condition' step' budget) := by
  induction budget with
  | zero => exact obedient_throw .outOfBudget
  | succ budget ih =>
      unfold repeatWhile
      infer_instance

section Audited

variable [audit.Tolerant w.limits]

/-- A change of anything but the functions and the classes. -/
theorem obedient_change {f : Session β → Except Fault (α × Session β)}
    (hf : ∀ s a t, f s = .ok (a, t) →
      t.names = s.names ∧ t.frames = s.frames ∧ t.classes = s.classes) :
    Obedient σ (change f : Compile w.settings α) (change f : Compile (w.audited audit) α) where
  obeys := obeys_change fun s a t hs h => by
    obtain ⟨hnames, hframes, hclasses⟩ := hf s a t h
    exact ⟨hs.proper_of_frames_eq hnames hframes, hs.congr hnames hframes hclasses⟩

instance (f : Reader → α × Reader) : Obedient σ (changeReader f : Compile w.settings α)
    (changeReader f : Compile (w.audited audit) α) :=
  obedient_change fun _ _ _ h => by
    cases h
    exact ⟨rfl, rfl, rfl⟩

instance (f : Reader → Reader) : Obedient σ (modifyReader f : Compile w.settings Unit)
    (modifyReader f : Compile (w.audited audit) Unit) := by
  unfold modifyReader
  infer_instance

/-! ## Reading tokens -/

instance [hσ : σ.nesting.Balanced] : Obedient σ (startExpression : Compile w.settings Unit)
    (startExpression : Compile (w.audited audit) Unit) where
  obeys s a t hs hrun := by
    have hrun' : Except.ok ((), s) = .ok (a, t) := hrun
    cases hrun'
    refine ⟨?_, hs⟩
    unfold run startExpression
    dsimp only
    rw [if_pos (Audit.Tolerant.expression hσ hs)]

omit [audit.Tolerant w.limits] in
instance (quantity : Quantity) : Obedient σ (measure quantity : Compile w.settings Unit)
    (measure quantity : Compile (w.audited audit) Unit) :=
  inferInstanceAs (Obedient σ (pure () : Compile w.settings Unit)
    (pure () : Compile (w.audited audit) Unit))

omit [audit.Tolerant w.limits] in
instance : Obedient σ (previous : Compile w.settings _) (previous : Compile (w.audited audit) _) := by
  unfold previous
  infer_instance

omit [audit.Tolerant w.limits] in
instance : Obedient σ (current : Compile w.settings _) (current : Compile (w.audited audit) _) := by
  unfold current
  infer_instance

instance : Obedient σ (advance : Compile w.settings Unit) (advance : Compile (w.audited audit) Unit) := by
  unfold advance
  infer_instance

omit [audit.Tolerant w.limits] in
instance (kind : TokenKind Symbol) : Obedient σ (check kind : Compile w.settings Bool)
    (check kind : Compile (w.audited audit) Bool) := by
  unfold check
  infer_instance

instance (kind : TokenKind Symbol) : Obedient σ (accept kind : Compile w.settings Bool)
    (accept kind : Compile (w.audited audit) Bool) := by
  unfold accept
  infer_instance

instance (kind : TokenKind Symbol) (message : String) :
    Obedient σ (consume kind message : Compile w.settings Unit)
      (consume kind message : Compile (w.audited audit) Unit) := by
  unfold consume
  infer_instance

instance (message : String) : Obedient σ (consumeIdentifier message : Compile w.settings Symbol)
    (consumeIdentifier message : Compile (w.audited audit) Symbol) := by
  unfold consumeIdentifier
  infer_instance

instance (problem : Diagnostic.Problem) : Obedient σ (report problem : Compile w.settings Unit)
    (report problem : Compile (w.audited audit) Unit) := by
  unfold report
  infer_instance

instance (problem : Diagnostic.Problem) : Obedient σ (reportCurrent problem : Compile w.settings Unit)
    (reportCurrent problem : Compile (w.audited audit) Unit) := by
  unfold reportCurrent
  infer_instance

instance (event : Event) : Obedient σ (note event : Compile w.settings Unit)
    (note event : Compile (w.audited audit) Unit) :=
  obedient_change fun _ _ _ h => by
    cases h
    exact ⟨rfl, rfl, rfl⟩

instance : Obedient σ (recover : Compile w.settings Unit)
    (recover : Compile (w.audited audit) Unit) := by
  unfold recover
  infer_instance

instance (item : Nat → Compile w.settings Unit) (item' : Nat → Compile (w.audited audit) Unit)
    (budget count : Nat) [∀ n, Obedient σ (item n) (item' n)] :
    Obedient σ (separated item budget count) (separated item' budget count) := by
  induction budget generalizing count with
  | zero => exact obedient_throw .outOfBudget
  | succ budget ih =>
      unfold separated
      infer_instance

end Audited

end Compile

end LoxCompiler
