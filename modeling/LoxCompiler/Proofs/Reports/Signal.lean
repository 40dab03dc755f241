import LoxCompiler.Proofs.Recovery.Boundary

/-! # Signals

What a run has to say about its source, whether it is reported or not: the problems that it raises,
and the places where reports are allowed again. The signals decide what is reported. After a
resumption, the first problem is, and those after it are not, up to the next resumption.
-/

namespace LoxCompiler

/-- Something that a run raises. -/
inductive Signal where
  /-- A problem is found. It may be one that is not reported. -/
  | raised (d : Diagnostic)
  /-- Reports are allowed again, from the next boundary on. -/
  | resumed
deriving DecidableEq

namespace Signal

/-- What is reported of some signals, in order, given whether reports are suppressed before them. -/
def reports : Bool → List Signal → List Diagnostic
  | _, [] => []
  | _, .resumed :: signals => reports false signals
  | true, .raised _ :: signals => reports true signals
  | false, .raised d :: signals => d :: reports true signals

/-- Whether reports are suppressed after some signals, given whether they are before. -/
def silence : Bool → List Signal → Bool
  | silent, [] => silent
  | _, .resumed :: signals => silence false signals
  | _, .raised _ :: signals => silence true signals

/-- The signals of lexical errors. -/
def lexical (errors : List LexicalError) : List Signal := errors.map fun e => .raised e.diagnostic

variable {silent : Bool} {signals more : List Signal} {d : Diagnostic}

@[simp] theorem silence_append (silent : Bool) (signals more : List Signal) :
    silence silent (signals ++ more) = silence (silence silent signals) more := by
  induction signals generalizing silent with
  | nil => rfl
  | cons signal signals ih => cases signal <;> exact ih _

@[simp] theorem reports_append (silent : Bool) (signals more : List Signal) :
    reports silent (signals ++ more) =
      reports silent signals ++ reports (silence silent signals) more := by
  induction signals generalizing silent with
  | nil => rfl
  | cons signal signals ih =>
      cases signal with
      | resumed => exact ih false
      | raised d =>
          cases silent with
          | true => exact ih true
          | false => exact congrArg (d :: ·) (ih true)

@[simp] theorem mem_lexical {errors : List LexicalError} :
    .raised d ∈ lexical errors ↔ ∃ e ∈ errors, e.diagnostic = d := by
  simp [lexical]

/-- Of some lexical errors, the first one is reported if reports are allowed. -/
theorem reports_lexical (silent : Bool) (errors : List LexicalError) :
    reports silent (lexical errors) =
      if silent then [] else (errors.head?.map LexicalError.diagnostic).toList := by
  have hsilent (errors : List LexicalError) : reports true (lexical errors) = [] := by
    induction errors with
    | nil => rfl
    | cons e errors ih => exact ih
  cases silent with
  | true => exact hsilent errors
  | false =>
      cases errors with
      | nil => rfl
      | cons e errors => exact congrArg (e.diagnostic :: ·) (hsilent errors)

theorem silence_lexical (silent : Bool) (errors : List LexicalError) :
    silence silent (lexical errors) = (silent || !errors.isEmpty) := by
  induction errors generalizing silent with
  | nil => exact (Bool.or_false _).symm
  | cons e errors ih => simpa [lexical, silence] using ih true

/-- Without a resumption, nothing is reported while reports are suppressed. -/
theorem reports_of_silent (h : .resumed ∉ signals) : reports true signals = [] := by
  induction signals with
  | nil => rfl
  | cons signal signals ih =>
      cases signal with
      | resumed => exact absurd List.mem_cons_self h
      | raised d => exact ih fun hmem => h (List.mem_cons_of_mem _ hmem)

/-- Without a resumption, at most one problem is reported. -/
theorem length_reports_le (silent : Bool) (h : .resumed ∉ signals) :
    (reports silent signals).length ≤ 1 := by
  cases silent with
  | true => simp [reports_of_silent h]
  | false =>
      cases signals with
      | nil => exact Nat.zero_le _
      | cons signal signals =>
          cases signal with
          | resumed => exact absurd List.mem_cons_self h
          | raised d => simp [reports, reports_of_silent fun hmem => h (List.mem_cons_of_mem _ hmem)]

/-- Something is reported if something is raised at all. -/
theorem reports_eq_nil_iff : reports false signals = [] ↔ ∀ d, .raised d ∉ signals := by
  induction signals with
  | nil => simp [reports]
  | cons signal signals ih =>
      cases signal with
      | resumed => simpa [reports] using ih
      | raised d => exact iff_of_false (List.cons_ne_nil _ _) fun h => h d List.mem_cons_self

end Signal

/-- The report of a problem at a token. -/
def Token.diagnostic (token : Token Symbol) (problem : Diagnostic.Problem) : Diagnostic :=
  ⟨problem, token.position.line, if token.kind = .endOfInput then .atEnd else .lexeme token.lexeme⟩

namespace Reader

/-- The items that were upcoming in one reader and are not in a later one. -/
def taken (r t : Reader) : List (Scanned Symbol) :=
  r.upcoming.take (r.upcoming.length - t.upcoming.length)

/-- The signals of the lexical errors between two readers. -/
def passed (r t : Reader) : List Signal := Signal.lexical (Scanned.errors (r.taken t))

theorem taken_eq {r t : Reader} {items : List (Scanned Symbol)}
    (h : r.upcoming = items ++ t.upcoming) : r.taken t = items := by
  simp [taken, h]

/-- One reader becomes another one while signals are raised: it reports what they say, and none of
the lexical errors that it takes is missing among them. -/
structure Hears (r : Reader) (signals : List Signal) (t : Reader) : Prop where
  panicMode : t.panicMode = Signal.silence r.panicMode signals
  diagnostics : t.diagnostics = (Signal.reports r.panicMode signals).reverse ++ r.diagnostics
  upcoming : ∃ items, r.upcoming = items ++ t.upcoming ∧
    ∀ e ∈ Scanned.errors items, .raised e.diagnostic ∈ signals

variable {r t u : Reader} {signals more : List Signal} {items : List (Scanned Symbol)}

namespace Hears

theorem refl (r : Reader) : r.Hears [] r where
  panicMode := rfl
  diagnostics := rfl
  upcoming := ⟨[], rfl, by simp [Scanned.errors]⟩

theorem trans (h : r.Hears signals t) (h' : t.Hears more u) : r.Hears (signals ++ more) u where
  panicMode := by rw [h'.panicMode, h.panicMode, Signal.silence_append]
  diagnostics := by
    rw [h'.diagnostics, h.diagnostics, h.panicMode, Signal.reports_append, List.reverse_append,
      List.append_assoc]
  upcoming := by
    obtain ⟨items, hitems, herrors⟩ := h.upcoming
    obtain ⟨items', hitems', herrors'⟩ := h'.upcoming
    refine ⟨items ++ items', by rw [hitems, hitems', List.append_assoc], fun e he => ?_⟩
    rw [Scanned.errors_append] at he
    rcases List.mem_append.mp he with he | he
    · exact List.mem_append_left _ (herrors e he)
    · exact List.mem_append_right _ (herrors' e he)

end Hears

/-- Items are skipped with the signals of their lexical errors. -/
theorem Skips.hears (h : r.Skips items t) : r.Hears (r.passed t) t := by
  have htaken : r.taken t = items := taken_eq h.upcoming
  constructor
  · rw [h.panicMode, passed, htaken, Signal.silence_lexical]
  · rw [h.diagnostics, passed, htaken, Signal.reports_lexical]
    -- There is at most one diagnostic to reverse.
    cases r.panicMode <;> cases (Scanned.errors items).head? <;> rfl
  · refine ⟨items, h.upcoming, fun e he => ?_⟩
    rw [passed, htaken, Signal.mem_lexical]
    exact ⟨e, he, rfl⟩

theorem hears_advance (r : Reader) : r.Hears (r.passed r.advance) r.advance := by
  obtain ⟨items, h⟩ := skips_advance r
  exact h.hears

theorem hears_report (r : Reader) (d : Diagnostic) : r.Hears [.raised d] (r.report d) := by
  refine ⟨?_, ?_, [], ?_, by simp [Scanned.errors]⟩ <;> cases hr : r.panicMode <;>
    simp [report, hr, Signal.silence, Signal.reports]

theorem hears_resume (r : Reader) : r.Hears [.resumed] { r with panicMode := false } where
  panicMode := rfl
  diagnostics := rfl
  upcoming := ⟨[], rfl, by simp [Scanned.errors]⟩

theorem hears_synchronize (r : Reader) :
    r.Hears (.resumed :: r.passed r.synchronize.2) r.synchronize.2 := by
  obtain ⟨n, hn, -⟩ := skipToBoundary_eq r.upcoming 0 { r with panicMode := false }
  obtain ⟨items, hskips⟩ := skips_iterate n { r with panicMode := false }
  have hlast : r.synchronize.2 = advance^[n] { r with panicMode := false } := congrArg Prod.snd hn
  rw [← hlast] at hskips
  exact (hears_resume r).trans hskips.hears

end Reader

namespace Compile

variable {β : Type} {c : Settings β}

/-- A step that does not move the reader, wherever it starts. -/
def Mute {α : Type} (step : Compile c α) : Prop :=
  ∀ {s a t}, step.run s = .ok (a, t) → t.reader = s.reader

/-- A run of a step, with the signals that it raises: those of its parts, one after the other. Of
the parts that are not made of others, some move the reader. A token is taken with the signals of
the lexical errors before it, a report raises its problem whether reports are suppressed or not, and
synchronizing is a resumption. -/
inductive Raises : {α : Type} → Compile c α → Session β → List Signal → α → Session β → Prop
  | mute {α : Type} {step : Compile c α} {s t : Session β} {a : α} :
      Mute step → step.run s = .ok (a, t) → Raises step s [] a t
  | bind {α γ : Type} {step : Compile c α} {k : α → Compile c γ} {s t u : Session β} {a : α} {b : γ}
      {signals more : List Signal} :
      Raises step s signals a t → Raises (k a) t more b u →
      Raises (step >>= k) s (signals ++ more) b u
  | advance {s t : Session β} : (advance : Compile c Unit).run s = .ok ((), t) →
      Raises advance s (s.reader.passed t.reader) () t
  | report {s t : Session β} {problem : Diagnostic.Problem} :
      (report problem : Compile c Unit).run s = .ok ((), t) →
      Raises (report problem) s [.raised (s.reader.previous.diagnostic problem)] () t
  | reportCurrent {s t : Session β} {problem : Diagnostic.Problem} :
      (reportCurrent problem : Compile c Unit).run s = .ok ((), t) →
      Raises (reportCurrent problem) s [.raised (s.reader.current.diagnostic problem)] () t
  | synchronize {s t : Session β} {skipped : Nat} :
      (changeReader (·.synchronize) : Compile c Nat).run s = .ok (skipped, t) →
      Raises (changeReader (·.synchronize)) s (.resumed :: s.reader.passed t.reader) skipped t

variable {α : Type} {step : Compile c α} {s t : Session β} {a : α} {signals : List Signal}

theorem Raises.run (h : Raises step s signals a t) : step.run s = .ok (a, t) := by
  induction h with
  | mute _ hrun => exact hrun
  | bind _ _ hstep hk => rw [run_bind_of_ok hstep, hk]
  | advance hrun => exact hrun
  | report hrun => exact hrun
  | reportCurrent hrun => exact hrun
  | synchronize hrun => exact hrun

/-- The reader of a run hears the signals that it raises. -/
theorem Raises.hears (h : Raises step s signals a t) : s.reader.Hears signals t.reader := by
  induction h with
  | mute hmute hrun =>
      rw [hmute hrun]
      exact .refl _
  | bind _ _ hstep hk => exact hstep.trans hk
  | advance hrun =>
      cases ok_of_run_change hrun
      exact Reader.hears_advance _
  | report hrun =>
      cases ok_of_run_change hrun
      exact Reader.hears_report _ _
  | reportCurrent hrun =>
      cases ok_of_run_change hrun
      exact Reader.hears_report _ _
  | synchronize hrun =>
      cases ok_of_run_change hrun
      exact Reader.hears_synchronize _

end Compile

end LoxCompiler
