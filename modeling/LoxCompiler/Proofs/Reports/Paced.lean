import LoxCompiler.Proofs.Reports.Signal

/-! # Paced steps

A report at the last token taken is in order only if a token was taken after the last resumption, or
if it would be suppressed. So a step knows two modes: it may start or end in any state, or only in a
settled one, where such a report is in order. A step that takes or misses a token settles.
-/

set_option synthInstance.maxSize 4096

namespace LoxCompiler

/-- Properties of readers that reading keeps: one of settled readers, with `true`, and a weaker one
of all readers, with `false`. -/
structure Reader.Paced (holds : Bool → Reader → Prop) : Prop where
  relax : ∀ r, holds true r → holds false r
  advance : ∀ r, holds false r → holds true r.advance
  reportPrevious : ∀ r problem, holds true r → holds true (r.reportPrevious problem)
  reportCurrent : ∀ r problem, holds false r → holds true (r.reportCurrent problem)
  resume : ∀ r, holds false r → holds false { r with panicMode := false }

theorem Reader.Paced.synchronize {holds : Bool → Reader → Prop} (h : Paced holds) (r : Reader)
    (hr : holds false r) : holds false r.synchronize.2 := by
  obtain ⟨n, skipped, hn, -⟩ := synchronize_eq r
  rw [hn]
  clear hn
  induction n with
  | zero => exact h.resume r hr
  | succ n ih =>
      rw [Function.iterate_succ_apply']
      exact h.relax _ (h.advance _ ih)

namespace Compile

variable {β : Type} {c : Settings β} {α γ : Type}

/-- A step that leads from one mode to another one. Each run of it raises signals. -/
class Paces (before after : Bool) (step : Compile c α) : Prop where
  raises : ∀ {s a t}, step.run s = .ok (a, t) → ∃ signals, Raises step s signals a t
  keeps : ∀ {holds : Bool → Reader → Prop}, Reader.Paced holds → ∀ {s a t},
    step.run s = .ok (a, t) → holds before s.reader → holds after t.reader

theorem Mute.paces {mode : Bool} {step : Compile c α} (h : Mute step) : Paces mode mode step where
  raises hrun := ⟨_, .mute h hrun⟩
  keeps _ _ _ _ hrun hs := by
    rw [h hrun]
    exact hs

namespace Paces

variable {before between after : Bool} {step : Compile c α} {k : α → Compile c γ}

theorem bind (hstep : Paces before between step) (hk : ∀ a, Paces between after (k a)) :
    Paces before after (step >>= k) := by
  constructor
  · intro s b u hrun
    obtain ⟨a, t, hfirst, hsecond⟩ := ok_of_run_bind hrun
    obtain ⟨signals, hsignals⟩ := hstep.raises hfirst
    obtain ⟨more, hmore⟩ := (hk a).raises hsecond
    exact ⟨_, hsignals.bind hmore⟩
  · intro holds hholds s b u hrun hs
    obtain ⟨a, t, hfirst, hsecond⟩ := ok_of_run_bind hrun
    exact (hk a).keeps hholds hsecond (hstep.keeps hholds hfirst hs)

/-- A step that goes on in the mode it started in. -/
theorem keeping [hstep : Paces before before step] (hk : ∀ a, Paces before after (k a)) :
    Paces before after (step >>= k) :=
  hstep.bind hk

/-- A step that goes on settled. -/
theorem settling [hstep : Paces before true step] (hk : ∀ a, Paces true after (k a)) :
    Paces before after (step >>= k) :=
  hstep.bind hk

/-- A step that starts in any mode starts in a settled one. -/
theorem settled (h : Paces false after step) : Paces true after step where
  raises := h.raises
  keeps hholds _ _ _ hrun hs := h.keeps hholds hrun (hholds.relax _ hs)

/-- A step that ends settled ends in some mode. -/
theorem relaxed (h : Paces before true step) : Paces before false step where
  raises := h.raises
  keeps hholds _ _ _ hrun hs := hholds.relax _ (h.keeps hholds hrun hs)

end Paces

variable {mode : Bool}

instance (m : Compile c α) (k : α → Compile c γ) [hm : Paces mode mode m]
    [hk : ∀ a, Paces mode mode (k a)] : Paces mode mode (m >>= k) :=
  hm.bind hk

instance {before after : Bool} {p : Prop} [Decidable p] (m k : Compile c α)
    [hm : Paces before after m] [hk : Paces before after k] :
    Paces before after (if p then m else k) := by
  split <;> assumption

/-! ## Steps that do not move the reader -/

instance (a : α) : Paces mode mode (pure a : Compile c α) :=
  Mute.paces fun h => by cases h; rfl

instance : Paces mode mode (read : Compile c (Session β)) :=
  Mute.paces fun h => by cases h; rfl

instance {before after : Bool} (fault : Fault) : Paces before after (throw fault : Compile c α) where
  raises h := nomatch h
  keeps _ _ _ _ h _ := nomatch h

theorem paces_change {f : Session β → Except Fault (α × Session β)}
    (hf : ∀ s a t, f s = .ok (a, t) → t.reader = s.reader) :
    Paces mode mode (change f : Compile c α) :=
  Mute.paces fun h => hf _ _ _ (ok_of_run_change h)

theorem paces_modify {f : Session β → Session β} (hf : ∀ s, (f s).reader = s.reader) :
    Paces mode mode (modify f : Compile c Unit) :=
  paces_change fun s _ _ h => by cases h; exact hf s

instance : Paces mode mode (startExpression : Compile c Unit) :=
  Mute.paces fun h => by rw [of_run_startExpression h]

instance (quantity : Quantity) : Paces mode mode (measure quantity : Compile c Unit) :=
  Mute.paces fun h => by rw [of_run_measure h]

instance : Paces mode mode (frame : Compile c (Frame β)) :=
  Mute.paces fun h => by
    obtain ⟨rfl, -⟩ := of_run_frame h
    rfl

instance (f : Frame β → Frame β) : Paces mode mode (modifyFrame f : Compile c Unit) :=
  Mute.paces fun h => by
    obtain ⟨_, _, -, rfl⟩ := of_run_modifyFrame h
    rfl

instance (name : Symbol) : Paces mode mode
    (capture name : Compile c (Except Diagnostic.Problem (Option Nat))) :=
  paces_change fun _ _ _ h => by cases h; rfl

instance (event : Event) : Paces mode mode (note event : Compile c Unit) :=
  paces_modify fun _ => rfl

instance (kind : FunctionKind) (name : Option Symbol) :
    Paces mode mode (beginFrame kind name : Compile c Unit) :=
  paces_modify fun _ => rfl

instance : Paces mode mode (beginClass : Compile c Unit) := paces_modify fun _ => rfl

instance : Paces mode mode (markSuperclass : Compile c Unit) := paces_modify fun _ => rfl

instance : Paces mode mode (endClass : Compile c ClassContext) := by
  apply paces_change
  intro s a t h
  split at h <;> cases h
  rfl

/-! ## Reading tokens -/

instance {before : Bool} : Paces before true (advance : Compile c Unit) := by
  have hadvance : Paces false true (advance : Compile c Unit) := by
    constructor
    · intro s a t hrun
      exact ⟨_, .advance hrun⟩
    · intro holds hholds s a t hrun hs
      cases ok_of_run_change hrun
      exact hholds.advance _ hs
  cases before with
  | false => exact hadvance
  | true => exact hadvance.settled

instance (problem : Diagnostic.Problem) :
    Paces true true (report problem : Compile c Unit) where
  raises hrun := ⟨_, .report hrun⟩
  keeps hholds _ _ _ hrun hs := by
    cases ok_of_run_change hrun
    exact hholds.reportPrevious _ problem hs

instance {before : Bool} (problem : Diagnostic.Problem) :
    Paces before true (reportCurrent problem : Compile c Unit) := by
  have hreport : Paces false true (reportCurrent problem : Compile c Unit) := by
    constructor
    · intro s a t hrun
      exact ⟨_, .reportCurrent hrun⟩
    · intro holds hholds s a t hrun hs
      cases ok_of_run_change hrun
      exact hholds.reportCurrent _ problem hs
  cases before with
  | false => exact hreport
  | true => exact hreport.settled

instance : Paces mode mode (previous : Compile c _) :=
  inferInstanceAs (Paces mode mode (do let s ← read; pure s.reader.previous))

instance : Paces mode mode (current : Compile c _) :=
  inferInstanceAs (Paces mode mode (do let s ← read; pure s.reader.current))

instance (kind : TokenKind Symbol) : Paces mode mode (check kind : Compile c Bool) :=
  inferInstanceAs (Paces mode mode (do let s ← read; pure (s.reader.check kind)))

/-- A change of the reader with a known answer. -/
theorem run_modifyReader_bind (f : Reader → Reader) (a : α) (s : Session β) :
    (modifyReader f >>= fun _ => pure a : Compile c α).run s =
      (changeReader fun r => (a, f r) : Compile c α).run s := by
  change ((modifyReader f : Compile c Unit).run s).bind _ = _
  unfold run modifyReader changeReader change
  split
  · rfl
  · dsimp only
    split <;> rfl

/-- Two changes of a reader are one step where they do the same to it. -/
theorem run_changeReader_congr {f g : Reader → α × Reader} {s : Session β}
    (h : f s.reader = g s.reader) :
    (changeReader f : Compile c α).run s = (changeReader g : Compile c α).run s := by
  unfold run changeReader change
  dsimp only
  rw [h]

theorem run_modifyReader_congr {f g : Reader → Reader} {s : Session β}
    (h : f s.reader = g s.reader) :
    (modifyReader f : Compile c Unit).run s = (modifyReader g : Compile c Unit).run s :=
  run_changeReader_congr (Prod.ext rfl h)

/-- Taking a token of some kind, in two steps. -/
theorem consume_eq (kind : TokenKind Symbol) (message : String) :
    (consume kind message : Compile c Unit) = (do
      if ← check kind then advance else reportCurrent (.expected message)) := by
  funext s
  unfold consume
  change _ = (if s.reader.check kind then advance else reportCurrent (.expected message) :
    Compile c Unit).run s
  by_cases h : s.reader.check kind = true
  · rw [if_pos h]
    exact run_modifyReader_congr (if_pos h)
  · rw [if_neg h]
    exact run_modifyReader_congr (if_neg h)

/-- Taking a token of some kind where it stands, in two steps. -/
theorem accept_eq (kind : TokenKind Symbol) :
    (accept kind : Compile c Bool) = (do
      if ← check kind then
        advance
        return true
      else changeReader fun r => (false, r)) := by
  funext s
  change _ = (if s.reader.check kind then (do advance; return true)
    else changeReader fun r => (false, r) : Compile c Bool).run s
  by_cases h : s.reader.check kind = true
  · rw [if_pos h, advance, run_modifyReader_bind]
    exact run_changeReader_congr (if_pos h)
  · rw [if_neg h]
    exact run_changeReader_congr (if_neg h)

/-- Take a token for its name, if it is an identifier. -/
def takeName (message : String) : TokenKind Symbol → Compile c Symbol
  | .identifier name => do
      advance
      return name
  | _ => do
      reportCurrent (.expected message)
      return .anonymous

/-- Taking an identifier, in two steps. -/
theorem consumeIdentifier_eq (message : String) :
    (consumeIdentifier message : Compile c Symbol) = (do takeName message (← current).kind) := by
  funext s
  change _ = (takeName message s.reader.current.kind : Compile c Symbol).run s
  unfold takeName
  split
  · rename_i name h
    rw [advance, run_modifyReader_bind]
    exact run_changeReader_congr (by simp only [Reader.consumeIdentifier, h])
  · rename_i h
    rw [reportCurrent, run_modifyReader_bind]
    exact run_changeReader_congr (by unfold Reader.consumeIdentifier; split <;> grind)

instance {before : Bool} (kind : TokenKind Symbol) (message : String) :
    Paces before true (consume kind message : Compile c Unit) := by
  rw [consume_eq]
  exact .keeping fun _ => inferInstance

instance (kind : TokenKind Symbol) : Paces mode mode (accept kind : Compile c Bool) := by
  have htaken : Paces mode true (do advance; return true : Compile c Bool) :=
    .settling fun _ => inferInstance
  have hmissed : Paces mode mode (changeReader fun r => (false, r) : Compile c Bool) :=
    paces_change fun _ _ _ h => by cases h; rfl
  have : Paces mode mode (do advance; return true : Compile c Bool) := by
    cases mode with
    | false => exact htaken.relaxed
    | true => exact htaken
  rw [accept_eq]
  infer_instance

instance {before : Bool} (message : String) :
    Paces before true (consumeIdentifier message : Compile c Symbol) := by
  rw [consumeIdentifier_eq]
  refine .keeping fun token => ?_
  unfold takeName
  split <;> exact .settling fun _ => inferInstance

instance : Paces false false (recover : Compile c Unit) := by
  have hsync : Paces false false (changeReader (·.synchronize) : Compile c Nat) := by
    constructor
    · intro s a t hrun
      exact ⟨_, .synchronize hrun⟩
    · intro holds hholds s a t hrun hs
      cases ok_of_run_change hrun
      exact hholds.synchronize _ hs
  unfold recover
  infer_instance

/-! ## Loops -/

instance (condition : Compile c Bool) (step : Compile c Unit) (budget : Nat)
    [Paces mode mode condition] [Paces mode mode step] :
    Paces mode mode (repeatWhile condition step budget) := by
  induction budget with
  | zero => exact inferInstanceAs (Paces mode mode (throw .outOfBudget : Compile c Unit))
  | succ budget ih =>
      unfold repeatWhile
      infer_instance

instance (item : Nat → Compile c Unit) (budget count : Nat) [∀ n, Paces mode mode (item n)] :
    Paces mode mode (separated item budget count) := by
  induction budget generalizing count with
  | zero => exact inferInstanceAs (Paces mode mode (throw .outOfBudget : Compile c Nat))
  | succ budget ih =>
      unfold separated
      infer_instance

instance (m : Option γ) (k : γ → Compile c Unit) [hk : ∀ a, Paces mode mode (k a)] :
    Paces mode mode (m.forM k) := by
  cases m with
  | none => exact inferInstanceAs (Paces mode mode (pure () : Compile c Unit))
  | some a => exact hk a

instance paces_forM (as : List γ) (k : γ → Compile c Unit) [hk : ∀ a, Paces mode mode (k a)] :
    Paces mode mode (as.forM k) := by
  induction as with
  | nil => exact inferInstanceAs (Paces mode mode (pure () : Compile c Unit))
  | cons a as ih => exact inferInstanceAs (Paces mode mode (k a >>= fun _ => as.forM k))

end Compile

end LoxCompiler
