import LoxCompiler.Proofs.Lines.Abreast
import LoxCompiler.Proofs.Simulation.Emission

/-! # Steps side by side

Two steps that both run without a report from sessions at the same place come to sessions at the
same place. Idle steps change nothing that is compared, so any two of them are side by side. Other
steps are so with themselves, whatever their names and operands are. What a step answers matters
only where it tells what code comes next.
-/

set_option synthInstance.maxSize 4096

namespace LoxCompiler

/-- A kind of token that is not the end of the input. -/
class TokenKind.Inner (kind : TokenKind Symbol) : Prop where
  ne_end : kind ≠ .endOfInput

namespace TokenKind

instance (x : Symbol) : Inner (.identifier x) := ⟨by simp⟩
instance (value : Literal Symbol) : Inner (.literal value) := ⟨by simp⟩
instance (word : Keyword) : Inner (.keyword word) := ⟨by simp⟩
instance (op : Operator) : Inner (.operator op) := ⟨by simp⟩
instance : Inner .comma := ⟨by simp⟩
instance : Inner .dot := ⟨by simp⟩
instance : Inner .semicolon := ⟨by simp⟩
instance : Inner .openParen := ⟨by simp⟩
instance : Inner .closeParen := ⟨by simp⟩
instance : Inner .openBrace := ⟨by simp⟩
instance : Inner .closeBrace := ⟨by simp⟩

end TokenKind

namespace Compile

variable {β : Type} {w : Width β} {α γ : Type} {c : Course β} {R : α → α → Prop} {S : γ → γ → Prop}

section Frames

variable {s t : Session β}

theorem Cleanly.of_frame {f : Frame β}
    (h : Cleanly (frame : Compile w.settings (Frame β)) s f t) :
    ∃ outer, s.frames = f :: outer ∧ t = s := by
  obtain ⟨rfl, outer, hframes⟩ := of_run_frame h.run
  exact ⟨outer, hframes, rfl⟩

theorem Cleanly.of_modifyFrame {change : Frame β → Frame β} {a : Unit}
    (h : Cleanly (modifyFrame change : Compile w.settings Unit) s a t) :
    ∃ f outer, s.frames = f :: outer ∧ t = { s with frames := change f :: outer } :=
  of_run_modifyFrame h.run

end Frames

/-! ## Steps without clean runs -/

/-- A step that has no clean run. -/
class Blocked (m : Compile w.settings α) : Prop where
  not_cleanly : ∀ {s a t}, ¬ Cleanly m s a t

instance (problem : Diagnostic.Problem) : Blocked (report problem : Compile w.settings Unit) :=
  ⟨not_cleanly_report⟩

instance (problem : Diagnostic.Problem) : Blocked (reportCurrent problem : Compile w.settings Unit) :=
  ⟨not_cleanly_reportCurrent⟩

instance (fault : Fault) : Blocked (throw fault : Compile w.settings α) := ⟨cleanly_throw⟩

instance (m : Compile w.settings α) (k : α → Compile w.settings γ) [Orderly m] [∀ a, Orderly (k a)]
    [hm : Blocked m] : Blocked (m >>= k) where
  not_cleanly h := by
    obtain ⟨_, _, hfirst, _⟩ := h.of_bind
    exact hm.not_cleanly hfirst

/-! ## Idle steps -/

/-- A step whose clean runs change nothing that is compared. -/
class Idle (m : Compile w.settings α) : Prop where
  run : ∀ {s t : Session β} {a : α}, Cleanly m s a t → s.Stays t

section Idle

variable {m n : Compile w.settings α} {k : α → Compile w.settings γ}

instance (priority := low) [hm : Blocked m] : Idle m where
  run h := (hm.not_cleanly h).elim

instance (a : α) : Idle (pure a : Compile w.settings α) where
  run h := by
    obtain ⟨-, -, rfl⟩ := cleanly_pure.mp h
    exact .refl _

instance [Orderly m] [∀ a, Orderly (k a)] [hm : Idle m] [hk : ∀ a, Idle (k a)] :
    Idle (m >>= k) where
  run h := by
    obtain ⟨_, _, hfirst, hrest⟩ := h.of_bind
    exact (hm.run hfirst).trans ((hk _).run hrest)

instance {p : Prop} [Decidable p] [hm : Idle m] [hn : Idle n] : Idle (if p then m else n) := by
  split <;> assumption

instance (as : Option γ) (k : γ → Compile w.settings Unit) [hk : ∀ a, Idle (k a)] :
    Idle (as.forM k) := by
  cases as with
  | none => exact inferInstanceAs (Idle (pure () : Compile w.settings Unit))
  | some a => exact hk a

instance : Idle (read : Compile w.settings (Session β)) where
  run h := by
    obtain ⟨-, -, rfl⟩ := cleanly_read.mp h
    exact .refl _

instance : Idle (frame : Compile w.settings (Frame β)) where
  run h := by
    obtain ⟨_, -, rfl⟩ := h.of_frame
    exact .refl _

instance (quantity : Quantity) : Idle (measure quantity : Compile w.settings Unit) :=
  inferInstanceAs (Idle (pure () : Compile w.settings Unit))

instance (event : Event) : Idle (note event : Compile w.settings Unit) where
  run h := by
    cases h.run
    exact ⟨rfl, rfl, Frames.stays_refl _, rfl⟩

theorem idle_modifyFrame {f : Frame β → Frame β} (hf : ∀ g : Frame β, g.Stays (f g)) :
    Idle (modifyFrame f : Compile w.settings Unit) where
  run h := by
    obtain ⟨g, outer, hg, rfl⟩ := h.of_modifyFrame
    refine ⟨rfl, rfl, ?_, rfl⟩
    rw [hg]
    exact .cons (hf g) (Frames.stays_refl outer)

instance : Idle (codeSize : Compile w.settings Nat) := by
  unfold codeSize
  infer_instance

instance : Idle (constantCount : Compile w.settings Nat) := by
  unfold constantCount
  infer_instance

theorem idle_addConstant {value : Constant β} (hvalue : value.function? = none) :
    Idle (addConstant value : Compile w.settings Nat) := by
  have hadd : Idle (modifyFrame (·.addConstant value) : Compile w.settings Unit) :=
    idle_modifyFrame fun g => g.stays_addConstant hvalue
  unfold addConstant
  infer_instance

instance (x : Symbol) : Idle (addName x : Compile w.settings Nat) := idle_addConstant rfl

instance (problem : Diagnostic.Problem) (distance : Nat) :
    Idle (fitDistance problem distance : Compile w.settings Nat) := by
  unfold fitDistance
  infer_instance

instance (operand : Nat) : Idle (patchJump operand : Compile w.settings Unit) := by
  have hclose (high low : β) :
      Idle (modifyFrame (·.closeJump operand high low) : Compile w.settings Unit) :=
    idle_modifyFrame fun _ => ⟨rfl, rfl, rfl, rfl, rfl⟩
  unfold patchJump
  infer_instance

instance (answer : Option (Nat × Bool)) :
    Idle (localSlot answer : Compile w.settings (Option Nat)) := by
  unfold localSlot
  split <;> infer_instance

instance (x : Symbol) : Idle (resolveLocal x : Compile w.settings (Option Nat)) := by
  rw [resolveLocal_eq]
  infer_instance

instance (x : Symbol) : Idle
    (captureVariable x : Compile w.settings (Except Diagnostic.Problem (Option Nat))) where
  run h := by
    rw [captureVariable_eq] at h
    cases h.run
    exact ⟨rfl, rfl, Frames.stays_resolveUpvalue _ _ _, rfl⟩

instance (answer : Except Diagnostic.Problem (Option Nat)) :
    Idle (upvalueIndex answer : Compile w.settings (Option Nat)) := by
  unfold upvalueIndex
  split <;> infer_instance

instance (x : Symbol) : Idle (resolveUpvalue x : Compile w.settings (Option Nat)) := by
  rw [resolveUpvalue_eq]
  infer_instance

instance (x : Symbol) (index : Option Nat) :
    Idle (accessOuter x index : Compile w.settings Access) := by
  unfold accessOuter
  split <;> infer_instance

instance (x : Symbol) (slot : Option Nat) :
    Idle (accessLocal x slot : Compile w.settings Access) := by
  unfold accessLocal
  split <;> infer_instance

instance (x : Symbol) : Idle (access x : Compile w.settings Access) := by
  rw [access_eq]
  infer_instance

end Idle

/-! ## Steps side by side -/

/-- From sessions at the same place, clean runs of two steps come to sessions at the same place, with
answers that match. -/
class Abreast (c : Course β) (R : α → α → Prop) (m m' : Compile w.settings α) : Prop where
  run : ∀ {s s' t t' : Session β} {a a' : α}, s.Abreast c s' → Cleanly m s a t →
    Cleanly m' s' a' t' → R a a' ∧ t.Abreast c t'

/-- Any two answers match. -/
abbrev Any (_ _ : α) : Prop := True

section Blocks

variable {m m' n n' : Compile w.settings α} {k k' : α → Compile w.settings γ}

theorem Abreast.bind [Orderly m] [Orderly m'] [∀ a, Orderly (k a)] [∀ a, Orderly (k' a)]
    (hm : Abreast c R m m') (hk : ∀ {a a'}, R a a' → Abreast c S (k a) (k' a')) :
    Abreast c S (m >>= k) (m' >>= k') where
  run hs h h' := by
    obtain ⟨a, t, hfirst, hrest⟩ := h.of_bind
    obtain ⟨a', t', hfirst', hrest'⟩ := h'.of_bind
    obtain ⟨ha, ht⟩ := hm.run hs hfirst hfirst'
    exact (hk ha).run ht hrest hrest'

instance (priority := low) [hm : Idle m] [hm' : Idle m'] : Abreast c Any m m' where
  run hs h h' := ⟨trivial, hs.stays (hm.run h) (hm'.run h')⟩

instance [Orderly m] [Orderly m'] [∀ a, Orderly (k a)] [∀ a, Orderly (k' a)]
    [hm : Abreast c Any m m'] [hk : ∀ a a', Abreast c S (k a) (k' a')] :
    Abreast c S (m >>= k) (m' >>= k') :=
  hm.bind fun _ => hk _ _

theorem Abreast.pure {a a' : α} (ha : R a a') :
    Abreast c R (pure a : Compile w.settings α) (Pure.pure a') where
  run hs h h' := by
    obtain ⟨-, rfl, rfl⟩ := cleanly_pure.mp h
    obtain ⟨-, rfl, rfl⟩ := cleanly_pure.mp h'
    exact ⟨ha, hs⟩

instance {p : Prop} [Decidable p] [hm : Abreast c R m m'] [hn : Abreast c R n n'] :
    Abreast c R (if p then m else n) (if p then m' else n') := by
  split <;> assumption

/-- Where only one branch has clean runs, it does not matter what is asked. -/
instance {p p' : Prop} [Decidable p] [Decidable p'] [hm : Blocked m] [hm' : Blocked m']
    [hn : Abreast c R n n'] : Abreast c R (if p then m else n) (if p' then m' else n') where
  run hs h h' := by
    split at h
    · exact (hm.not_cleanly h).elim
    · split at h'
      · exact (hm'.not_cleanly h').elim
      · exact hn.run hs h h'

theorem abreast_forM {T : γ → γ → Prop} {as as' : List γ} (has : List.Forall₂ T as as')
    {k k' : γ → Compile w.settings Unit} [∀ a, Orderly (k a)] [∀ a, Orderly (k' a)]
    (hk : ∀ {a a'}, T a a' → Abreast c Any (k a) (k' a')) :
    Abreast c Any (as.forM k) (as'.forM k') := by
  induction has with
  | nil => exact .pure trivial
  | cons ha _ ih => exact (hk ha).bind fun _ => ih

instance (as : List γ) (k : γ → Compile w.settings Unit) [∀ a, Orderly (k a)]
    [hk : ∀ a, Abreast c Any (k a) (k a)] : Abreast c Any (as.forM k) (as.forM k) :=
  abreast_forM (T := Eq) (List.forall₂_refl as) fun {a a'} (h : a = a') => h ▸ hk a

theorem Abreast.read_bind {k k' : Session β → Compile w.settings γ}
    (hk : ∀ {s s' : Session β}, s.Abreast c s' → Abreast c S (k s) (k' s')) :
    Abreast c S (read >>= k) (read >>= k') where
  run hs h h' := (hk hs).run hs (cleanly_read_bind.mp h) (cleanly_read_bind.mp h')

theorem Abreast.previous_bind {k k' : Token Symbol → Compile w.settings γ}
    (hk : ∀ {token token' : Token Symbol}, c.line token.position.line token'.position.line →
      Abreast c S (k token) (k' token')) : Abreast c S (previous >>= k) (previous >>= k') where
  run hs h h' := (hk hs.reader.previous).run hs (cleanly_previous_bind.mp h)
    (cleanly_previous_bind.mp h')

theorem Abreast.frame_bind {k k' : Frame β → Compile w.settings γ} [∀ f, Orderly (k f)]
    [∀ f, Orderly (k' f)] (hk : ∀ {past : Past β} {f f' : Frame β}, f.Abreast c.line past f' →
      Abreast c S (k f) (k' f')) : Abreast c S (frame >>= k) (frame >>= k') where
  run {s s' _ _ _ _} hs h h' := by
    obtain ⟨f, _, hf, hrest⟩ := h.of_bind
    obtain ⟨f', _, hf', hrest'⟩ := h'.of_bind
    obtain ⟨outer, hframes, rfl⟩ := hf.of_frame
    obtain ⟨outer', hframes', rfl⟩ := hf'.of_frame
    obtain ⟨past, hinnermost⟩ := (hframes ▸ hframes' ▸ hs.frames).innermost
    exact (hk hinnermost).run hs hrest hrest'

/-- A change of the innermost functions. -/
theorem abreast_modifyFrame {f f' : Frame β → Frame β}
    (h : ∀ {past : Past β} {g g' : Frame β}, g.Abreast c.line past g' →
      (f g).Abreast c.line past (f' g')) :
    Abreast c Any (modifyFrame f : Compile w.settings Unit) (modifyFrame f') where
  run {s s' _ _ _ _} hs hm hm' := by
    obtain ⟨g, outer, hg, rfl⟩ := hm.of_modifyFrame
    obtain ⟨g', outer', hg', rfl⟩ := hm'.of_modifyFrame
    have hframes := hs.frames
    rw [hg, hg'] at hframes
    exact ⟨trivial, { hs with frames := hframes.replace h }⟩

end Blocks

/-! ## Tokens and code -/

/-- Clean runs of two steps come to sessions at the same place, even where nothing is known of the
last token that the second one took before: they take one before they append any code. -/
class Begins (c : Course β) (m m' : Compile w.settings α) : Prop where
  run : ∀ {s s' t t' : Session β} {a a' : α} (token : Token Symbol),
    s.Abreast c { s' with reader := { s'.reader with previous := token } } → Cleanly m s a t →
    Cleanly m' s' a' t' → t.Abreast c t'

instance (priority := low) (m m' : Compile w.settings α) [hm : Begins c m m'] :
    Abreast c Any m m' where
  run {_ s' _ _ _ _} hs h h' := ⟨trivial, hm.run s'.reader.previous hs h h'⟩

instance (m m' : Compile w.settings α) (k k' : α → Compile w.settings γ) [Orderly m] [Orderly m']
    [∀ a, Orderly (k a)] [∀ a, Orderly (k' a)] [hm : Begins c m m']
    [hk : ∀ a a', Abreast c Any (k a) (k' a')] : Begins c (m >>= k) (m' >>= k') where
  run token hs h h' := by
    obtain ⟨a, t, hfirst, hrest⟩ := h.of_bind
    obtain ⟨a', t', hfirst', hrest'⟩ := h'.of_bind
    exact ((hk a a').run (hm.run token hs hfirst hfirst') hrest hrest').2

theorem begins_expect {kind kind' : TokenKind Symbol} (hkind : kind ≠ .endOfInput ∨ ¬ c.longer) :
    Begins c (expect kind : Compile w.settings Unit) (expect kind') where
  run token hs h h' := by
    obtain ⟨hcurrent, hadvance⟩ := cleanly_expect.mp h
    obtain ⟨-, rfl, -⟩ := cleanly_advance.mp hadvance
    obtain ⟨-, rfl, -⟩ := cleanly_advance.mp (cleanly_expect.mp h').2
    have hreader := hs.reader.advance (hkind.imp_left fun hkind => hcurrent ▸ hkind)
    exact ⟨hs.names, hs.names', hreader, hs.frames, hs.classes⟩

instance (kind kind' : TokenKind Symbol) [hkind : kind.Inner] :
    Begins c (expect kind : Compile w.settings Unit) (expect kind') :=
  begins_expect (.inl hkind.ne_end)

instance (value value' : Nat) :
    Abreast c Any (emitCell value : Compile w.settings Unit) (emitCell value') :=
  .previous_bind fun hline => abreast_modifyFrame fun hf => hf.write _ _ hline

instance (op op' : Opcode) : Abreast c Any (emit op : Compile w.settings Unit) (emit op') := by
  unfold emit
  infer_instance

instance (op op' : Opcode) (operand operand' : Nat) :
    Abreast c Any (emitWith op operand : Compile w.settings Unit) (emitWith op' operand') := by
  unfold emitWith
  infer_instance

theorem abreast_emitConstant {value value' : Constant β} (hvalue : value.function? = none)
    (hvalue' : value'.function? = none) :
    Abreast c Any (emitConstant value : Compile w.settings Unit) (emitConstant value') := by
  have := idle_addConstant (w := w) hvalue
  have := idle_addConstant (w := w) hvalue'
  unfold emitConstant
  infer_instance

instance (op op' : Opcode) : Abreast c Any (emitJump op : Compile w.settings Nat) (emitJump op') := by
  have hopen (operand : Nat) : Idle (modifyFrame (·.openJump operand) : Compile w.settings Unit) :=
    idle_modifyFrame fun _ => ⟨rfl, rfl, rfl, rfl, rfl⟩
  unfold emitJump
  infer_instance

instance (start start' : Nat) :
    Abreast c Any (emitLoop start : Compile w.settings Unit) (emitLoop start') := by
  unfold emitLoop
  infer_instance

instance : Abreast c Any (emitReturn : Compile w.settings Unit) emitReturn := by
  refine .frame_bind fun hf => ?_
  rw [hf.kind]
  infer_instance

/-! ## Scopes, variables and functions -/

instance : Abreast c Any (beginScope : Compile w.settings Unit) beginScope :=
  abreast_modifyFrame fun hf => { hf with scopeDepth := congrArg (· + 1) hf.scopeDepth }

instance : Abreast c Any (endScope : Compile w.settings Unit) endScope := by
  rw [endScope_eq]
  refine .frame_bind fun {_ f f'} hf => ?_
  rw [hf.scopeDepth]
  cases f'.scopeDepth with
  | zero =>
      exact inferInstanceAs
        (Abreast c Any (throw .noScope : Compile w.settings Unit) (throw .noScope))
  | succ depth =>
      have hleave : Abreast c Any
          (modifyFrame fun frame => { frame with
            scopeDepth := depth
            locals := frame.locals.dropWhile (·.declaredWithin (depth + 1)) } :
            Compile w.settings Unit)
          (modifyFrame fun frame => { frame with
            scopeDepth := depth
            locals := frame.locals.dropWhile (·.declaredWithin (depth + 1)) }) :=
        abreast_modifyFrame fun hf => hf.leave depth
      have hdropped := hf.takeWhile (depth + 1)
      refine hleave.bind fun _ => (abreast_forM hdropped fun _ => ?_).bind fun _ => inferInstance
      exact inferInstanceAs (Abreast c Any (emit _) (emit _))

variable {x x' : Symbol}

theorem Cleanly.of_addLocal {s t : Session β} {a : Unit}
    (h : Cleanly (addLocal x : Compile w.settings Unit) s a t) : ∃ f g outer, s.frames = f :: outer ∧
      f.addLocal w.limits x = .ok g ∧ t = { s with frames := g :: outer } := by
  rw [addLocal_eq] at h
  obtain ⟨f, _, hframe, hstore⟩ := h.of_bind
  obtain ⟨outer, hf, rfl⟩ := hframe.of_frame
  rw [measure_bind] at hstore
  cases hadd : f.addLocal w.settings.limits x with
  | ok g =>
      rw [hadd] at hstore
      obtain ⟨f', outer', hf', rfl⟩ := hstore.of_modifyFrame
      cases hf.symm.trans hf'
      exact ⟨f, g, outer, hf, hadd, rfl⟩
  | error problem =>
      rw [hadd] at hstore
      exact (not_cleanly_report hstore).elim

instance : Abreast c Any (addLocal x : Compile w.settings Unit) (addLocal x') where
  run {s s' _ _ _ _} hs h h' := by
    obtain ⟨f, g, outer, hf, hg, rfl⟩ := h.of_addLocal
    obtain ⟨f', g', outer', hf', hg', rfl⟩ := h'.of_addLocal
    have hframes := hs.frames
    rw [hf, hf'] at hframes
    exact ⟨trivial, { hs with frames := hframes.replace fun h => h.addLocal hg hg' }⟩

instance : Abreast c Any (declareVariable x : Compile w.settings Unit) (declareVariable x') := by
  refine .frame_bind fun hf => ?_
  rw [hf.scopeDepth]
  infer_instance

instance : Abreast c Any (markInitialized : Compile w.settings Unit) markInitialized :=
  abreast_modifyFrame fun hf => hf.markInitialized

instance (global global' : Nat) :
    Abreast c Any (defineVariable global : Compile w.settings Unit) (defineVariable global') := by
  refine .frame_bind fun hf => ?_
  rw [hf.scopeDepth]
  infer_instance

instance : Abreast c Any (loadVariable x : Compile w.settings Unit) (loadVariable x') := by
  unfold loadVariable
  infer_instance

instance (kind : FunctionKind) :
    Abreast c Any (beginFrame kind (some x) : Compile w.settings Unit) (beginFrame kind (some x')) where
  run hs h h' := by
    cases h.run
    cases h'.run
    exact ⟨trivial, { hs with frames := .inside (.new kind _ _ _ _) hs.frames }⟩

instance : Abreast c Any (beginClass : Compile w.settings Unit) beginClass where
  run hs h h' := by
    cases h.run
    cases h'.run
    exact ⟨trivial, { hs with classes := congrArg (List.cons _) hs.classes }⟩

instance : Abreast c Any (markSuperclass : Compile w.settings Unit) markSuperclass where
  run hs h h' := by
    cases h.run
    cases h'.run
    exact ⟨trivial, { hs with classes := congrArg (List.modifyHead fun _ => ⟨true⟩) hs.classes }⟩

theorem abreast_endClass : Abreast c Eq (endClass : Compile w.settings ClassContext) endClass where
  run {s s' _ _ _ _} hs h h' := by
    have hrun := h.run
    have hrun' := h'.run
    unfold Compile.run endClass Compile.change at hrun hrun'
    dsimp only at hrun hrun'
    rw [hs.classes] at hrun
    cases hclasses : s'.classes with
    | nil =>
        rw [hclasses] at hrun
        cases hrun
    | cons context outer =>
        rw [hclasses] at hrun hrun'
        cases hrun
        cases hrun'
        exact ⟨rfl, { hs with classes := rfl }⟩

/-! ## Closures -/

/-- A step appends some number of cells to the innermost function, all with the line of the last
token taken, and does nothing else. -/
structure Lays (m : Compile w.settings Unit) (count : Nat) : Prop where
  run : ∀ {s f frames}, s.frames = f :: frames → ∃ code, m.run s = .ok ((), { s with
    frames := { f with
      code, lines := f.lines ++ Array.replicate count s.reader.previous.position.line } :: frames })

theorem lays_emitCell (value : Nat) : Lays (emitCell value : Compile w.settings Unit) 1 where
  run {s _ _} h :=
    ⟨_, run_modifyFrame (w := w) (·.write (w.cell value) s.reader.previous.position.line) h⟩

theorem Lays.bind {m k : Compile w.settings Unit} {count more : Nat} (hm : Lays m count)
    (hk : Lays k more) : Lays (m >>= fun _ => k) (count + more) where
  run {s f frames} h := by
    obtain ⟨code, hrun⟩ := hm.run h
    obtain ⟨code', hrun'⟩ := hk.run (s := { s with frames := _ :: frames }) rfl
    refine ⟨code', (run_bind_of_ok hrun).trans (hrun'.trans ?_)⟩
    simp [Array.replicate_append_replicate]

theorem lays_forM (items : List γ) {k : γ → Compile w.settings Unit} {count : Nat}
    (hk : ∀ i, Lays (k i) count) : Lays (items.forM k) (count * items.length) := by
  induction items with
  | nil => exact ⟨fun {s f frames} h => ⟨f.code, by simp [run_pure, ← h]⟩⟩
  | cons i items ih =>
      rw [List.length_cons, Nat.mul_succ, Nat.add_comm]
      exact (hk i).bind ih

theorem lays_closure (index : Nat) (upvalues : List Upvalue) : Lays (do
    emitWith .closure index
    upvalues.forM fun upvalue => do
      emitCell (if upvalue.isLocal then 1 else 0)
      emitCell upvalue.index : Compile w.settings Unit) (2 + 2 * upvalues.length) :=
  ((lays_emitCell _).bind (lays_emitCell index)).bind
    (lays_forM upvalues fun _ => (lays_emitCell _).bind (lays_emitCell _))

theorem Cleanly.of_addConstant {value : Constant β} {s t : Session β} {index : Nat}
    (h : Cleanly (addConstant value : Compile w.settings Nat) s index t) :
    ∃ f outer, s.frames = f :: outer ∧ t = { s with frames := f.addConstant value :: outer } := by
  unfold addConstant at h
  obtain ⟨_, _, hadd, hrest⟩ := h.of_bind
  obtain ⟨f, outer, hf, rfl⟩ := hadd.of_modifyFrame
  obtain ⟨_, _, hcount, hrest⟩ := hrest.of_bind
  unfold constantCount at hcount
  obtain ⟨_, _, hframe, hpure⟩ := hcount.of_bind
  obtain ⟨_, -, rfl⟩ := hframe.of_frame
  obtain ⟨-, -, rfl⟩ := cleanly_pure.mp hpure
  rw [measure_bind] at hrest
  split at hrest
  · obtain ⟨-, -, rfl⟩ := cleanly_pure.mp hrest
    exact ⟨f, outer, hf, rfl⟩
  · exact (not_cleanly_report_bind hrest).elim

/-- The innermost function is taken off, and the one around it makes a closure of it. -/
theorem Cleanly.of_takeFrame {s t : Session β} {a : Unit}
    (h : Cleanly (takeFrame >>= emitClosure : Compile w.settings Unit) s a t) :
    ∃ f g outer code events, s.frames = f :: g :: outer ∧ t = { s with
      frames := { g.addConstant (.function f.finish) with
        code, lines := g.lines ++ Array.replicate (2 + 2 * f.finish.upvalueCount)
          s.reader.previous.position.line } :: outer
      events } := by
  obtain ⟨finished, u, htake, hclosure⟩ := h.of_bind
  have htakes := htake.run
  cases hfs : s.frames with
  | nil =>
      obtain ⟨names, reader, frames, classes, events⟩ := s
      cases hfs
      cases htakes
  | cons f frames =>
      obtain ⟨events, hrun⟩ := run_takeFrame (w := w) hfs
      cases hrun.symm.trans htakes
      unfold emitClosure at hclosure
      obtain ⟨index, v, hadd, hlays⟩ := hclosure.of_bind
      obtain ⟨g, outer, rfl, rfl⟩ := hadd.of_addConstant
      obtain ⟨code, hrun⟩ := (lays_closure (w := w) index f.upvalues).run
        (s := { s with frames := _ :: outer, events }) rfl
      cases hrun.symm.trans hlays.run
      exact ⟨f, g, outer, code, events, rfl, rfl⟩

instance : Abreast c Any (takeFrame >>= emitClosure : Compile w.settings Unit)
    (takeFrame >>= emitClosure) where
  run {s s' _ _ _ _} hs h h' := by
    obtain ⟨f, g, outer, code, events, hf, rfl⟩ := h.of_takeFrame
    obtain ⟨f', g', outer', code', events', hf', rfl⟩ := h'.of_takeFrame
    have hframes := hs.frames
    rw [hf, hf'] at hframes
    obtain ⟨hwoven, houter⟩ := hframes.finish (List.cons_ne_nil _ _)
    exact ⟨trivial, { hs with
      frames := houter.replace fun h => h.closure hwoven code code' hs.reader.previous }⟩

instance : Abreast c Any (endFrame >>= emitClosure : Compile w.settings Unit)
    (endFrame >>= emitClosure) := by
  rw [endFrame_eq, bind_assoc]
  infer_instance

end Compile

end LoxCompiler
