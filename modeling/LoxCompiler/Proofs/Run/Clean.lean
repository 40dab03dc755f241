import LoxCompiler.Proofs.Run.Constructs

/-! # Clean runs

A source is accepted if nothing is ever reported on it. Reports are never taken back, so every
step of such a run is clean: it starts and ends with a reader that has nothing reported. What
a clean run of a construct looks like follows from the clean runs of its parts.
-/

namespace LoxCompiler

namespace Reader

/-- Nothing was reported, and a report would not be suppressed. -/
structure Quiet (r : Reader) : Prop where
  noError : r.hadError = false
  noPanic : r.panicMode = false

theorem not_quiet_report (r : Reader) (d : Diagnostic) : ¬ (r.report d).Quiet := by
  intro h
  unfold report at h
  split at h
  · exact Bool.false_ne_true (h.noPanic.symm.trans ‹_›)
  · cases h.noError

theorem report_hadError (r : Reader) (d : Diagnostic) (h : r.hadError = true) :
    (r.report d).hadError = true := by
  unfold report
  split
  · exact h
  · rfl

theorem stable_hadError : Stable fun r => r.hadError = true :=
  .of_report report_hadError (fun _ h => h) fun _ _ _ _ h => h

/-- Reports are only suppressed after a report. -/
def Honest (r : Reader) : Prop := r.panicMode = true → r.hadError = true

theorem report_honest (r : Reader) (d : Diagnostic) (h : r.Honest) : (r.report d).Honest := by
  unfold report
  split
  · exact h
  · exact fun _ => rfl

theorem stable_honest : Stable Honest :=
  .of_report report_honest (fun _ _ h => (Bool.false_ne_true h).elim) fun _ _ _ _ h => h

theorem Quiet.honest {r : Reader} (h : r.Quiet) : r.Honest :=
  fun hp => (Bool.false_ne_true (h.noPanic.symm.trans hp)).elim

theorem Honest.quiet {r : Reader} (h : r.Honest) (hr : r.hadError ≠ true) : r.Quiet where
  noError := Bool.eq_false_iff.mpr hr
  noPanic := Bool.eq_false_iff.mpr fun hp => hr (h hp)

theorem previous_report (r : Reader) (d : Diagnostic) : (r.report d).previous = r.previous := by
  unfold report
  split <;> rfl

theorem previous_advanceOver (r : Reader) (items : List (Scanned Symbol)) :
    (r.advanceOver items).previous = r.previous := by
  fun_induction advanceOver r items with
  | case1 => rfl
  | case2 => rfl
  | case3 r e upcoming ih => rw [ih, previous_report]

theorem previous_advance (r : Reader) : r.advance.previous = r.current :=
  previous_advanceOver _ _

/-! ## What is left to read -/

theorem remaining_advanceOver (r : Reader) (items : List (Scanned Symbol)) :
    (r.advanceOver items).remaining ≤ items.length := by
  fun_induction advanceOver r items with
  | case1 => simp [remaining]
  | case2 r token upcoming =>
      simp only [remaining, List.length_cons]
      split <;> omega
  | case3 r e upcoming ih =>
      simp only [List.length_cons]
      omega

theorem remaining_advance_le (r : Reader) : r.advance.remaining ≤ r.remaining := by
  have h := remaining_advanceOver { r with previous := r.current } r.upcoming
  unfold advance
  simp only [remaining] at h ⊢
  omega

theorem remaining_advance_lt {r : Reader} (hr : r.current.kind ≠ .endOfInput) :
    r.advance.remaining < r.remaining := by
  have h := remaining_advanceOver { r with previous := r.current } r.upcoming
  unfold advance
  simp only [remaining, if_neg hr] at h ⊢
  omega

theorem remaining_report (r : Reader) (d : Diagnostic) :
    (r.report d).remaining = r.remaining := by
  unfold report
  split <;> rfl

theorem stable_remaining (n : Nat) : Stable fun r => r.remaining ≤ n where
  advance r h := Nat.le_trans (remaining_advance_le r) h
  report r d h := by
    rw [remaining_report]
    exact h
  resume _ h := h

end Reader

namespace Width

/-- Code of some width, without an audit. -/
abbrev settings {β : Type} (w : Width β) : Settings β := ⟨w, none, fun _ => true⟩

end Width

namespace Compile

variable {β : Type} {w : Width β} {α γ : Type}

theorem run_modifyFrame (g : Frame β → Frame β) {s : Session β} {f : Frame β} {outer : Frames β}
    (h : s.frames = f :: outer) :
    (modifyFrame g : Compile w.settings Unit).run s =
      .ok ((), { s with frames := g f :: outer }) := by
  unfold run modifyFrame
  show (Frames.modifyInnermost g s.frames >>= _) = _
  rw [h]
  rfl

/-- Any number is fine, without anything to stop at. -/
@[simp] theorem measure_bind (quantity : Quantity) (k : Unit → Compile w.settings α) :
    measure quantity >>= k = k () := rfl

@[simp] theorem forM_measure (f : γ → Quantity) (as : List γ) :
    (as.forM fun a => measure (f a) : Compile w.settings Unit) = pure () := by
  induction as with
  | nil => rfl
  | cons a as ih => exact ih

theorem captureVariable_eq (name : Symbol) :
    (captureVariable name : Compile w.settings (Except Diagnostic.Problem (Option Nat))) =
      capture name := by
  unfold captureVariable
  simp only [forM_measure, pure_bind]
  exact bind_pure (capture name : Compile w.settings (Except Diagnostic.Problem (Option Nat)))

/-- A step runs without a report from one state to another, and answers. -/
structure Cleanly (m : Compile w.settings α) (s : Session β) (a : α) (t : Session β) :
    Prop where
  before : s.reader.Quiet
  run : m.run s = .ok (a, t)
  after : t.reader.Quiet

namespace Cleanly

variable {m : Compile w.settings α} {k : α → Compile w.settings γ} {s t u : Session β} {a : α}
  {b : γ}

theorem bind (hm : Cleanly m s a t) (hk : Cleanly (k a) t b u) : Cleanly (m >>= k) s b u where
  before := hm.before
  run := (run_bind_of_ok hm.run).trans hk.run
  after := hk.after

/-- Reports are never taken back, so a clean run is clean half-way. -/
theorem of_bind [hm : Orderly m] [hk : ∀ a, Orderly (k a)] (h : Cleanly (m >>= k) s b u) :
    ∃ a t, Cleanly m s a t ∧ Cleanly (k a) t b u := by
  obtain ⟨a, t, hrun, hrest⟩ := ok_of_run_bind h.run
  have hhonest : t.reader.Honest := hm.keeps Reader.stable_honest hrun h.before.honest
  have hquiet : t.reader.Quiet := by
    apply hhonest.quiet
    intro herror
    have hlate : u.reader.hadError = true :=
      (hk a).keeps Reader.stable_hadError hrest herror
    exact Bool.false_ne_true (h.after.noError.symm.trans hlate)
  exact ⟨a, t, ⟨h.before, hrun, hquiet⟩, ⟨hquiet, hrest, h.after⟩⟩

theorem unique {a' : α} {t' : Session β} (h : Cleanly m s a t) (h' : Cleanly m s a' t') :
    a' = a ∧ t' = t := by
  have heq := h'.run.symm.trans h.run
  cases heq
  exact ⟨rfl, rfl⟩

theorem remaining_le [hm : Orderly m] (h : Cleanly m s a t) :
    t.reader.remaining ≤ s.reader.remaining :=
  hm.keeps (Reader.stable_remaining _) h.run (Nat.le_refl _)

end Cleanly

theorem cleanly_bind {m : Compile w.settings α} {k : α → Compile w.settings γ}
    [Orderly m] [∀ a, Orderly (k a)] {s u : Session β} {b : γ} :
    Cleanly (m >>= k) s b u ↔ ∃ a t, Cleanly m s a t ∧ Cleanly (k a) t b u := by
  constructor
  · exact Cleanly.of_bind
  · rintro ⟨a, t, hm, hk⟩
    exact hm.bind hk

section Steps

variable {s t : Session β}

theorem cleanly_pure {a b : α} :
    Cleanly (pure a : Compile w.settings α) s b t ↔ s.reader.Quiet ∧ b = a ∧ t = s := by
  constructor
  · intro h
    have hrun := h.run
    rw [run_pure] at hrun
    cases hrun
    exact ⟨h.before, rfl, rfl⟩
  · rintro ⟨hs, rfl, rfl⟩
    exact ⟨hs, rfl, hs⟩

theorem cleanly_read {a : Session β} :
    Cleanly (read : Compile w.settings (Session β)) s a t ↔
      s.reader.Quiet ∧ a = s ∧ t = s := by
  constructor
  · intro h
    have hrun := h.run
    rw [run_read] at hrun
    cases hrun
    exact ⟨h.before, rfl, rfl⟩
  · rintro ⟨hs, rfl, rfl⟩
    exact ⟨hs, rfl, hs⟩

theorem cleanly_throw {fault : Fault} {a : α} :
    ¬ Cleanly (throw fault : Compile w.settings α) s a t := by
  intro h
  have hrun := h.run
  rw [run_throw] at hrun
  cases hrun

/-- A step that only looks at the state. -/
theorem cleanly_look (f : Session β → α) {a : α} :
    Cleanly (do let s ← read; pure (f s) : Compile w.settings α) s a t ↔
      s.reader.Quiet ∧ a = f s ∧ t = s := by
  rw [cleanly_bind]
  constructor
  · rintro ⟨_, _, hread, hpure⟩
    obtain ⟨_, rfl, rfl⟩ := cleanly_read.mp hread
    exact cleanly_pure.mp hpure
  · rintro ⟨hs, rfl, rfl⟩
    exact ⟨t, t, cleanly_read.mpr ⟨hs, rfl, rfl⟩, cleanly_pure.mpr ⟨hs, rfl, rfl⟩⟩

theorem cleanly_previous {a : Token Symbol} :
    Cleanly (previous : Compile w.settings _) s a t ↔
      s.reader.Quiet ∧ a = s.reader.previous ∧ t = s :=
  cleanly_look fun s => s.reader.previous

theorem cleanly_read_bind {k : Session β → Compile w.settings α} {a : α} :
    Cleanly (read >>= k) s a t ↔ Cleanly (k s) s a t :=
  ⟨fun h => ⟨h.before, h.run, h.after⟩, fun h => ⟨h.before, h.run, h.after⟩⟩

theorem cleanly_previous_bind {k : Token Symbol → Compile w.settings α} {a : α} :
    Cleanly (previous >>= k) s a t ↔ Cleanly (k s.reader.previous) s a t :=
  ⟨fun h => ⟨h.before, h.run, h.after⟩, fun h => ⟨h.before, h.run, h.after⟩⟩

theorem cleanly_current_bind {k : Token Symbol → Compile w.settings α} {a : α} :
    Cleanly (current >>= k) s a t ↔ Cleanly (k s.reader.current) s a t :=
  ⟨fun h => ⟨h.before, h.run, h.after⟩, fun h => ⟨h.before, h.run, h.after⟩⟩

theorem cleanly_check_bind {kind : TokenKind Symbol} {k : Bool → Compile w.settings α} {a : α} :
    Cleanly (check kind >>= k) s a t ↔ Cleanly (k (s.reader.check kind)) s a t :=
  ⟨fun h => ⟨h.before, h.run, h.after⟩, fun h => ⟨h.before, h.run, h.after⟩⟩

theorem cleanly_changeReader {f : Reader → α × Reader} {a : α} :
    Cleanly (changeReader f : Compile w.settings α) s a t ↔
      s.reader.Quiet ∧ a = (f s.reader).1 ∧ t = { s with reader := (f s.reader).2 } ∧
        (f s.reader).2.Quiet := by
  have hrun : (changeReader f : Compile w.settings α).run s =
      .ok ((f s.reader).1, { s with reader := (f s.reader).2 }) := rfl
  constructor
  · intro h
    have heq := hrun.symm.trans h.run
    cases heq
    exact ⟨h.before, rfl, rfl, h.after⟩
  · rintro ⟨hs, rfl, rfl, ht⟩
    exact ⟨hs, hrun, ht⟩

theorem cleanly_advance :
    Cleanly (advance : Compile w.settings Unit) s () t ↔
      s.reader.Quiet ∧ t = { s with reader := s.reader.advance } ∧ s.reader.advance.Quiet := by
  rw [advance, modifyReader, cleanly_changeReader]
  simp

/-- Take a token of some kind. There has to be one. -/
def expect (kind : TokenKind Symbol) : Compile w.settings Unit := consume kind ""

instance (kind : TokenKind Symbol) : Orderly (expect kind : Compile w.settings Unit) :=
  inferInstanceAs (Orderly (consume kind ""))

theorem not_cleanly_modifyReader {f : Reader → Reader} (hf : ¬ (f s.reader).Quiet) {a : Unit} :
    ¬ Cleanly (modifyReader f : Compile w.settings Unit) s a t := by
  rw [modifyReader, cleanly_changeReader]
  exact fun h => hf h.2.2.2

theorem not_cleanly_report {problem : Diagnostic.Problem} {a : Unit} :
    ¬ Cleanly (report problem : Compile w.settings Unit) s a t :=
  not_cleanly_modifyReader (Reader.not_quiet_report _ _)

theorem not_cleanly_report_bind {problem : Diagnostic.Problem} {k : Unit → Compile w.settings α}
    [∀ a, Orderly (k a)] {b : α} : ¬ Cleanly (report problem >>= k) s b t := by
  intro h
  obtain ⟨_, _, hreport, _⟩ := h.of_bind
  exact not_cleanly_report hreport

theorem not_cleanly_reportCurrent {problem : Diagnostic.Problem} {a : Unit} :
    ¬ Cleanly (reportCurrent problem : Compile w.settings Unit) s a t :=
  not_cleanly_modifyReader (Reader.not_quiet_report _ _)

theorem cleanly_consume {kind : TokenKind Symbol} {message : String} {a : Unit} :
    Cleanly (consume kind message : Compile w.settings Unit) s a t ↔
      s.reader.current.kind = kind ∧ Cleanly (advance : Compile w.settings Unit) s () t := by
  rw [consume, modifyReader, cleanly_changeReader, cleanly_advance]
  unfold Reader.consume Reader.check
  by_cases hkind : s.reader.current.kind = kind
  · simp [hkind]
  · have hreport := Reader.not_quiet_report s.reader
    simp [hkind, Reader.reportCurrent, Reader.reportAt, hreport]

theorem cleanly_expect {kind : TokenKind Symbol} {a : Unit} :
    Cleanly (expect kind : Compile w.settings Unit) s a t ↔
      s.reader.current.kind = kind ∧ Cleanly (advance : Compile w.settings Unit) s () t :=
  cleanly_consume

theorem cleanly_accept {kind : TokenKind Symbol} {a : Bool} :
    Cleanly (accept kind : Compile w.settings Bool) s a t ↔
      (a = true ∧ Cleanly (expect kind : Compile w.settings Unit) s () t) ∨
      (a = false ∧ s.reader.current.kind ≠ kind ∧ s.reader.Quiet ∧ t = s) := by
  rw [accept, cleanly_changeReader, cleanly_expect, cleanly_advance]
  unfold Reader.accept Reader.check
  by_cases hkind : s.reader.current.kind = kind
  · simp only [hkind, decide_true, if_true, ne_eq, not_true, false_and, and_false, or_false,
      true_and]
    grind
  · simp only [hkind, decide_false, ne_eq, not_false_eq_true, false_and, and_false, false_or,
      true_and]
    constructor
    · rintro ⟨hs, rfl, rfl, _⟩
      exact ⟨rfl, hs, rfl⟩
    · rintro ⟨rfl, hs, rfl⟩
      exact ⟨hs, rfl, rfl, hs⟩

/-- In a clean run the message of an expected token does not matter. -/
theorem cleanly_consume_iff_expect {kind : TokenKind Symbol} {message : String} {a : Unit} :
    Cleanly (consume kind message : Compile w.settings Unit) s a t ↔
      Cleanly (expect kind : Compile w.settings Unit) s a t := by
  rw [cleanly_consume, cleanly_expect]

theorem cleanly_consumeIdentifier {message : String} {name : Symbol} :
    Cleanly (consumeIdentifier message : Compile w.settings Symbol) s name t ↔
      Cleanly (expect (.identifier name) : Compile w.settings Unit) s () t := by
  rw [consumeIdentifier, cleanly_changeReader, cleanly_expect, cleanly_advance]
  unfold Reader.consumeIdentifier
  split
  · rename_i found hfound
    rw [hfound]
    constructor
    · rintro ⟨hs, rfl, ht⟩
      exact ⟨rfl, hs, ht⟩
    · rintro ⟨hname, hs, ht⟩
      cases hname
      exact ⟨hs, rfl, ht⟩
  · rename_i hother
    constructor
    · rintro ⟨_, _, _, hquiet⟩
      exact (Reader.not_quiet_report _ _ hquiet).elim
    · rintro ⟨hname, _⟩
      exact (hother name hname).elim

theorem Cleanly.expect_of_advance {kind : TokenKind Symbol}
    (hkind : s.reader.current.kind = kind)
    (h : Cleanly (advance : Compile w.settings Unit) s () t) :
    Cleanly (expect kind : Compile w.settings Unit) s () t :=
  cleanly_expect.mpr ⟨hkind, h⟩

theorem Cleanly.kind_of_expect {kind : TokenKind Symbol}
    (h : Cleanly (expect kind : Compile w.settings Unit) s () t) :
    s.reader.current.kind = kind :=
  (cleanly_expect.mp h).1

/-- After a token was taken, it is the last one taken. -/
theorem Cleanly.last_of_expect {kind : TokenKind Symbol}
    (h : Cleanly (expect kind : Compile w.settings Unit) s () t) :
    t.reader.previous = s.reader.current := by
  obtain ⟨_, rfl, _⟩ := cleanly_advance.mp (cleanly_expect.mp h).2
  exact Reader.previous_advance s.reader

theorem Cleanly.previous_of_expect {kind : TokenKind Symbol}
    (h : Cleanly (expect kind : Compile w.settings Unit) s () t) :
    t.reader.previous.kind = kind := by
  rw [h.last_of_expect, h.kind_of_expect]

/-- A token other than the end of the input makes what is left to read less. -/
theorem Cleanly.remaining_of_expect {kind : TokenKind Symbol}
    (h : Cleanly (expect kind : Compile w.settings Unit) s () t) (hkind : kind ≠ .endOfInput) :
    t.reader.remaining < s.reader.remaining := by
  obtain ⟨hcurrent, hadvance⟩ := cleanly_expect.mp h
  obtain ⟨_, rfl, _⟩ := cleanly_advance.mp hadvance
  exact Reader.remaining_advance_lt (hcurrent ▸ hkind)

theorem cleanly_forM_report {problem : Option Diagnostic.Problem} {a : Unit} :
    Cleanly (problem.forM report : Compile w.settings Unit) s a t ↔
      problem = none ∧ s.reader.Quiet ∧ t = s := by
  cases problem with
  | none =>
      constructor
      · exact fun h => ⟨rfl, (cleanly_pure.mp h).1, (cleanly_pure.mp h).2.2⟩
      · exact fun h => cleanly_pure.mpr ⟨h.2.1, rfl, h.2.2⟩
  | some problem =>
      constructor
      · exact fun h => (not_cleanly_report h).elim
      · exact fun h => nomatch h.1

theorem cleanly_recover {a : Unit} :
    Cleanly (recover : Compile w.settings Unit) s a t ↔ s.reader.Quiet ∧ t = s := by
  constructor
  · intro h
    unfold recover at h
    obtain ⟨_, _, hread, hrest⟩ := h.of_bind
    obtain ⟨hs, rfl, rfl⟩ := cleanly_read.mp hread
    rw [hs.noPanic] at hrest
    obtain ⟨_, _, ht⟩ := cleanly_pure.mp hrest
    exact ⟨hs, ht⟩
  · rintro ⟨hs, rfl⟩
    apply (cleanly_read.mpr ⟨hs, rfl, rfl⟩).bind
    rw [hs.noPanic]
    exact cleanly_pure.mpr ⟨hs, rfl, rfl⟩

end Steps

/-! ## Loops -/

section Loops

variable (condition : Compile w.settings Bool) (step : Compile w.settings Unit)

/-- A loop runs without a report, with some budget. -/
def Repeats (s t : Session β) : Prop := ∃ budget, Cleanly (repeatWhile condition step budget) s () t

variable {condition step} {s t u v : Session β} {budget : Nat}

theorem Cleanly.repeatWhile_stop (h : Cleanly condition s false t) (hbudget : 0 < budget) :
    Cleanly (repeatWhile condition step budget) s () t := by
  obtain ⟨budget, rfl⟩ := Nat.exists_eq_add_one.mpr hbudget
  unfold repeatWhile
  exact h.bind (cleanly_pure.mpr ⟨h.after, rfl, rfl⟩)

theorem Cleanly.repeatWhile_again (hcondition : Cleanly condition s true u)
    (hstep : Cleanly step u () v) (hbudget : 0 < budget)
    (hrest : Cleanly (repeatWhile condition step (budget - 1)) v () t) :
    Cleanly (repeatWhile condition step budget) s () t := by
  obtain ⟨budget, rfl⟩ := Nat.exists_eq_add_one.mpr hbudget
  unfold repeatWhile
  exact hcondition.bind (hstep.bind hrest)

theorem Repeats.stop (h : Cleanly condition s false t) : Repeats condition step s t :=
  ⟨1, h.repeatWhile_stop Nat.one_pos⟩

theorem Repeats.again (hcondition : Cleanly condition s true u) (hstep : Cleanly step u () v)
    (hrest : Repeats condition step v t) : Repeats condition step s t :=
  hrest.elim fun budget hrest =>
    ⟨budget + 1, hcondition.repeatWhile_again hstep budget.succ_pos hrest⟩

variable [Orderly condition] [Orderly step]

/-- A loop with a budget either stops at once or takes a step and goes on. -/
theorem Cleanly.of_repeatWhile
    (h : Cleanly (repeatWhile condition step (budget + 1)) s () t) :
    Cleanly condition s false t ∨ ∃ u v, Cleanly condition s true u ∧ Cleanly step u () v ∧
      Cleanly (repeatWhile condition step budget) v () t := by
  unfold repeatWhile at h
  obtain ⟨goesOn, u, hcondition, hrest⟩ := h.of_bind
  cases goesOn with
  | false =>
      obtain ⟨_, _, rfl⟩ := cleanly_pure.mp hrest
      exact .inl hcondition
  | true =>
      obtain ⟨_, v, hstep, hmore⟩ := Cleanly.of_bind (show Cleanly (step >>= fun _ => _) _ _ _ from hrest)
      exact .inr ⟨u, v, hcondition, hstep, hmore⟩

/-- What holds whenever the loop goes round holds for its whole run. -/
theorem Repeats.induct {motive : (s : Session β) → Repeats condition step s t → Prop}
    (stop : ∀ s (h : Cleanly condition s false t), motive s (.stop h))
    (again : ∀ s u v (hcondition : Cleanly condition s true u) (hstep : Cleanly step u () v)
      (hrest : Repeats condition step v t), motive v hrest →
        motive s (.again hcondition hstep hrest))
    {s : Session β} (h : Repeats condition step s t) : motive s h := by
  obtain ⟨budget, hbudget⟩ := h
  induction budget generalizing s with
  | zero => exact (cleanly_throw hbudget).elim
  | succ budget ih =>
      rcases hbudget.of_repeatWhile with hstop | ⟨u, v, hcondition, hstep, hrest⟩
      · exact stop s hstop
      · exact again s u v hcondition hstep ⟨budget, hrest⟩ (ih hrest)

/-- If every step takes a token, what is left to read is budget enough. -/
theorem Repeats.enough
    (takes : ∀ {s u v}, Cleanly condition s true u → Cleanly step u () v →
      v.reader.remaining < s.reader.remaining)
    (h : Repeats condition step s t) (hbudget : s.reader.remaining < budget) :
    Cleanly (repeatWhile condition step budget) s () t := by
  induction h using Repeats.induct generalizing budget with
  | stop s hstop => exact hstop.repeatWhile_stop (by omega)
  | again s u v hcondition hstep hrest ih =>
      have hless := takes hcondition hstep
      exact hcondition.repeatWhile_again hstep (by omega) (ih (by omega))

end Loops

end Compile

end LoxCompiler
