import LoxCompiler.Proofs.Reports.Signal
import LoxCompiler.Proofs.Run.Still
import LoxCompiler.Proofs.Viable.Goal

/-! # Following goals

The compiler stands before a token with goals that the tokens before it have led to. Reports about
the meaning of a program do not change that. So a step follows goals if it turns some goals into
others, unless it gets lost: it comes to a token that is stuck before the goals, or it skips tokens
after a report.
-/

set_option synthInstance.maxSize 4096

namespace LoxCompiler

variable {tokens : List (Token Symbol)} {gs new : List Goal} {g : Goal} {kind : Kind}

/-- A token offends if the tokens before it lead to goals before which it is stuck. -/
def Offends (tokens : List (Token Symbol)) (token : Token Symbol) : Prop :=
  ∃ before after gs, tokens = before ++ token :: after ∧ Stuck gs token.kind ∧
    Leads [.script] (tokens.map Token.kind) gs ((token :: after).map Token.kind)

namespace Reader

/-- A reader stands before one of some tokens, and the tokens before it lead to some goals. The last
one of the tokens is the end of the input. -/
structure Faces (tokens : List (Token Symbol)) (gs : List Goal) (r : Reader) : Prop where
  closed : ∀ before token, tokens = before ++ [token] → token.kind = .endOfInput
  place : ∃ before after, tokens = before ++ r.current :: after ∧ r.upcoming = after.map .ok ∧
    Leads [.script] (tokens.map Token.kind) gs ((r.current :: after).map Token.kind)

/-- A reader as if nothing had been reported. -/
def cleared (r : Reader) : Reader :=
  { r with hadError := false, panicMode := false, diagnostics := [] }

/-- No lexical error comes, and no report was about the tokens. -/
structure OnTrack (r : Reader) : Prop where
  noErrors : ∀ e, .error e ∉ r.upcoming
  faultless : ∀ d ∈ r.diagnostics, d.problem.isSyntactic = false
  /-- Reports are only suppressed after one of them. -/
  told : r.panicMode = true → r.diagnostics ≠ []

/-- Something was reported, and some token offends. If the first report is about the tokens, it is at
this one. -/
def Blames (tokens : List (Token Symbol)) (r : Reader) : Prop :=
  ∃ token d, Offends tokens token ∧ r.diagnostics.getLast? = some d ∧
    (d.problem.isSyntactic = true → d = token.diagnostic d.problem)

variable {r : Reader}

namespace Faces

/-- What a goal comes to before the next token has to come next in its place. -/
theorem refine (h : Faces tokens (g :: gs) r) (hnew : g.refine r.current.kind = some new) :
    Faces tokens (new ++ gs) r := by
  obtain ⟨before, after, htokens, hupcoming, hleads⟩ := h.place
  exact ⟨h.closed, before, after, htokens, hupcoming, hleads.trans (.refine hnew .refl)⟩

/-- A goal that comes to nothing before the next token is done. -/
theorem skip (h : Faces tokens (g :: gs) r) (hnone : g.refine r.current.kind = some []) :
    Faces tokens gs r :=
  h.refine hnone

theorem take (h : Faces tokens (.token kind :: gs) r) (hkind : r.current.kind = kind)
    (hend : kind ≠ .endOfInput) : Faces tokens gs r.advance := by
  obtain ⟨before, after, htokens, hupcoming, hleads⟩ := h.place
  cases after with
  | nil => exact absurd (hkind.symm.trans (h.closed before _ htokens)) hend
  | cons next after =>
      have hadvance : r.advance =
          { r with previous := r.current, current := next, upcoming := after.map .ok } := by
        unfold advance
        rw [hupcoming]
        rfl
      rw [hadvance]
      refine ⟨h.closed, before ++ [r.current], after, by simpa using htokens, rfl, ?_⟩
      rw [List.map_cons, hkind] at hleads
      exact hleads.trans (.take .refl)

/-- A token that the first goal has no use for offends. -/
theorem offends (h : Faces tokens (g :: gs) r) (hkind : g ≠ .token r.current.kind)
    (hnone : g.refine r.current.kind = none) : Offends tokens r.current := by
  obtain ⟨before, after, htokens, -, hleads⟩ := h.place
  refine ⟨before, after, g :: gs, htokens, ?_, hleads⟩
  rintro _ ⟨⟩
  exact ⟨hkind, hnone⟩

end Faces

theorem cleared_report (r : Reader) (d : Diagnostic) :
    (r.report d).cleared = r.cleared := by
  unfold report
  split <;> rfl

namespace OnTrack

variable {token : Token Symbol} {problem : Diagnostic.Problem}

theorem cleared_advance (h : r.OnTrack) : r.advance.cleared = r.cleared.advance := by
  have herrors := h.noErrors
  unfold advance cleared
  cases hupcoming : r.upcoming with
  | nil => rfl
  | cons item rest =>
      rw [hupcoming] at herrors
      cases item with
      | ok token => rfl
      | error e => exact absurd List.mem_cons_self (herrors e)

theorem advance (h : r.OnTrack) : r.advance.OnTrack := by
  obtain ⟨herrors, hfaultless, htold⟩ := h
  unfold Reader.advance
  cases hupcoming : r.upcoming with
  | nil => exact ⟨nofun, hfaultless, htold⟩
  | cons item rest =>
      rw [hupcoming] at herrors
      cases item with
      | ok token => exact ⟨fun e he => herrors e (List.mem_cons_of_mem _ he), hfaultless, htold⟩
      | error e => exact absurd List.mem_cons_self (herrors e)

theorem report (h : r.OnTrack) {d : Diagnostic} (hd : d.problem.isSyntactic = false) :
    (r.report d).OnTrack := by
  unfold Reader.report
  split
  · exact h
  · exact ⟨h.noErrors, List.forall_mem_cons.mpr ⟨hd, h.faultless⟩, fun _ => List.cons_ne_nil d _⟩

/-- Where reports are suppressed, the first report is not about the tokens. -/
theorem first (h : r.OnTrack) (hpanic : r.panicMode = true) :
    ∃ d, r.diagnostics.getLast? = some d ∧ d.problem.isSyntactic = false :=
  ⟨_, List.getLast?_eq_some_getLast (h.told hpanic), h.faultless _ (List.getLast_mem _)⟩

theorem blames (h : r.OnTrack) (hoffends : Offends tokens token) :
    (r.reportAt token problem).Blames tokens := by
  cases hfirst : r.diagnostics.getLast? with
  | some d =>
      have hstatic := h.faultless d (List.mem_of_getLast? hfirst)
      refine ⟨token, d, hoffends, (Stable.first d).reportAt r token problem hfirst, fun hd => ?_⟩
      cases hstatic.symm.trans hd
  | none =>
      have hnone : r.diagnostics = [] := List.getLast?_eq_none_iff.mp hfirst
      have hpanic : r.panicMode = false := Bool.eq_false_iff.mpr fun hpanic => h.told hpanic hnone
      refine ⟨token, token.diagnostic problem, hoffends, ?_, fun _ => rfl⟩
      simp [reportAt, Reader.report, hpanic, hnone, Token.diagnostic]

end OnTrack

end Reader

namespace Session

variable {β : Type}

/-- Tokens were skipped, after a first report that was not about the tokens. -/
structure Strays (s : Session β) : Prop where
  skips : ∃ line skipped, .synchronized line skipped ∈ s.events ∧ 0 < skipped
  first : ∃ d, s.reader.diagnostics.getLast? = some d ∧ d.problem.isSyntactic = false

/-- The goals do not say any more what comes next. -/
def Lost (tokens : List (Token Symbol)) (s : Session β) : Prop :=
  s.reader.Blames tokens ∨ s.Strays

/-- The first report and what was noted are there for good. -/
theorem Lost.run {c : Settings β} {α : Type} {m : Compile c α} [hm : Compile.Orderly m]
    {s t : Session β} {a : α} (h : s.Lost tokens) (hrun : m.run s = .ok (a, t)) :
    t.Lost tokens := by
  rcases h with ⟨token, d, hoffends, hfirst, hd⟩ | ⟨⟨line, skipped, hmem, hskipped⟩, d, hfirst, hd⟩
  · exact .inl ⟨token, d, hoffends, hm.keeps (Reader.Stable.first d) hrun hfirst, hd⟩
  · exact .inr ⟨⟨line, skipped, (hm.logs hrun).subset hmem, hskipped⟩, d,
      hm.keeps (Reader.Stable.first d) hrun hfirst, hd⟩

end Session

open Reader

namespace Compile

variable {β : Type} {w : Width β} {α γ : Type}

/-- A step that leads readers with one property to readers with another one, unless it gets lost.
The properties are about the place of a reader, and not about what was reported. -/
def Follows (tokens : List (Token Symbol)) (P : Reader → Prop) (m : Compile w.settings α)
    (Q : α → Reader → Prop) : Prop :=
  ∀ ⦃s a t⦄, m.run s = .ok (a, t) → s.reader.OnTrack → P s.reader.cleared →
    (t.reader.OnTrack ∧ Q a t.reader.cleared) ∨ t.Lost tokens

namespace Follows

variable {P P' : Reader → Prop} {m : Compile w.settings α} {k : α → Compile w.settings γ}
  {Q Q' : α → Reader → Prop} {R : γ → Reader → Prop} {message : String}
  {problem : Diagnostic.Problem}

theorem bind [∀ a, Orderly (k a)] (hm : Follows tokens P m Q)
    (hk : ∀ a, Follows tokens (Q a) (k a) R) : Follows tokens P (m >>= k) R := by
  intro s b u h htrack hs
  obtain ⟨a, t, hfirst, hrest⟩ := ok_of_run_bind h
  rcases hm hfirst htrack hs with ⟨htrack', ht⟩ | hlost
  · exact hk a hrest htrack' ht
  · exact .inr (hlost.run hrest)

theorem mono (h : Follows tokens P m Q) (hP : ∀ r, P' r → P r) (hQ : ∀ a r, Q a r → Q' a r) :
    Follows tokens P' m Q' := by
  intro s a t hrun htrack hs
  exact (h hrun htrack (hP _ hs)).imp_left fun ht => ⟨ht.1, hQ _ _ ht.2⟩

theorem of (hP : ∀ r, P' r → P r) (h : Follows tokens P m Q) : Follows tokens P' m Q :=
  h.mono hP fun _ _ hr => hr

theorem of_fact {p : Prop} (h : p → Follows tokens P m Q) :
    Follows tokens (fun r => P r ∧ p) m Q :=
  fun _ _ _ hrun htrack hs => h hs.2 hrun htrack hs.1

/-- A step that takes no token. What it may report is not about the tokens. -/
theorem still [hm : Still m] : Follows tokens P m fun _ => P := by
  intro s a t h htrack hs
  obtain ⟨htrack', heq⟩ : t.reader.OnTrack ∧ t.reader.cleared = s.reader.cleared :=
    hm.keeps (P := fun r => r.OnTrack ∧ r.cleared = s.reader.cleared)
      (fun r _ _ hproblem hr => ⟨hr.1.report hproblem, (cleared_report r _).trans hr.2⟩)
      h ⟨htrack, rfl⟩
  rw [← heq] at hs
  exact .inl ⟨htrack', hs⟩

/-- A step that takes no token before another one. -/
theorem after [Still m] [∀ a, Orderly (k a)] (hk : ∀ a, Follows tokens P (k a) R) :
    Follows tokens P (m >>= k) R :=
  still.bind hk

/-- A step that takes no token after another one. -/
theorem before {P' : Reader → Prop} [∀ a, Orderly (k a)] [∀ a, Still (k a)]
    (hm : Follows tokens P m fun _ => P') : Follows tokens P (m >>= k) fun _ => P' :=
  hm.bind fun _ => still

/-- A step that takes no token, and is only taken sometimes. -/
theorem guard {p : Prop} [Decidable p] {m : Compile w.settings Unit} {k : Compile w.settings γ}
    [Still m] [Orderly k] (hk : Follows tokens P k R) :
    Follows tokens P (if p then m >>= fun _ => k else k) R := by
  split
  · exact after fun _ => hk
  · exact hk

theorem pure_of {a : α} (h : ∀ r, P r → Q a r) :
    Follows tokens P (pure a : Compile w.settings α) Q := by
  intro s b t hrun htrack hs
  cases hrun
  exact .inl ⟨htrack, h _ hs⟩

theorem throw {fault : Fault} : Follows tokens P (throw fault : Compile w.settings α) Q := by
  intro s a t h
  cases h

/-! ## Looking at tokens -/

theorem current {k : Token Symbol → Compile w.settings γ}
    (hk : ∀ token, Follows tokens (fun r => P r ∧ r.current = token) (k token) R) :
    Follows tokens P (current >>= k) R :=
  fun _ _ _ h htrack hs => hk _ h htrack ⟨hs, rfl⟩

theorem previous {k : Token Symbol → Compile w.settings γ}
    (hk : ∀ token, Follows tokens (fun r => P r ∧ r.previous = token) (k token) R) :
    Follows tokens P (previous >>= k) R :=
  fun _ _ _ h htrack hs => hk _ h htrack ⟨hs, rfl⟩

theorem check {k : Bool → Compile w.settings γ}
    (hk : ∀ found,
      Follows tokens (fun r => P r ∧ found = decide (r.current.kind = kind)) (k found) R) :
    Follows tokens P (check kind >>= k) R :=
  fun _ _ _ h htrack hs => hk _ h htrack ⟨hs, rfl⟩

/-- A choice by the next token, which is not taken. -/
theorem ifCheck {yes no : Compile w.settings γ}
    (hyes : Follows tokens (fun r => P r ∧ r.current.kind = kind) yes R)
    (hno : Follows tokens (fun r => P r ∧ r.current.kind ≠ kind) no R) :
    Follows tokens P (do if ← Compile.check kind then yes else no) R := by
  refine check fun found => ?_
  cases found with
  | true => exact .of (fun r hr => ⟨hr.1, of_decide_eq_true hr.2.symm⟩) hyes
  | false => exact .of (fun r hr => ⟨hr.1, of_decide_eq_false hr.2.symm⟩) hno

/-! ## Taking tokens -/

theorem changeReader {f : Reader → α × Reader}
    (hf : ∀ r, r.OnTrack → P r.cleared →
      ((f r).2.OnTrack ∧ Q (f r).1 (f r).2.cleared) ∨ (f r).2.Blames tokens) :
    Follows tokens P (changeReader f : Compile w.settings α) Q := by
  intro s a t h htrack hs
  cases ok_of_run_change h
  exact (hf _ htrack hs).imp_right .inl

theorem modifyReader {f : Reader → Reader} {R : Unit → Reader → Prop}
    (hf : ∀ r, r.OnTrack → P r.cleared →
      ((f r).OnTrack ∧ R () (f r).cleared) ∨ (f r).Blames tokens) :
    Follows tokens P (modifyReader f : Compile w.settings Unit) R :=
  changeReader hf

theorem advance {R : Unit → Reader → Prop} (h : ∀ r, P r → R () r.advance) :
    Follows tokens P (advance : Compile w.settings Unit) R :=
  modifyReader fun _ htrack hr => .inl ⟨htrack.advance, htrack.cleared_advance ▸ h _ hr⟩

/-- Going on with whatever token is taken. -/
theorem take {S : Reader → Prop} {k : Token Symbol → Compile w.settings γ}
    (horderly : ∀ token, Orderly (k token)) (htake : ∀ r, P r → S r.advance)
    (hk : ∀ token, Follows tokens (fun r => S r ∧ r.previous = token) (k token) R) :
    Follows tokens P (do Compile.advance; k (← Compile.previous)) R :=
  (advance htake).bind fun _ => previous hk

/-- A report at a token that was taken, and that offends. -/
theorem report {R : Unit → Reader → Prop} (h : ∀ r, P r → Offends tokens r.previous) :
    Follows tokens P (report problem : Compile w.settings Unit) R :=
  modifyReader fun r htrack hr => .inr (htrack.blames (h r.cleared hr))

theorem consume (hkind : kind ≠ .endOfInput) :
    Follows tokens (Faces tokens (.token kind :: gs))
      (consume kind message : Compile w.settings Unit) fun _ => Faces tokens gs := by
  refine modifyReader fun r htrack hr => ?_
  unfold Reader.consume Reader.check
  by_cases hcurrent : r.current.kind = kind
  · rw [if_pos (by simpa using hcurrent)]
    exact .inl ⟨htrack.advance, htrack.cleared_advance ▸ hr.take hcurrent hkind⟩
  · rw [if_neg (by simpa using hcurrent)]
    have hstuck : Goal.token kind ≠ .token r.current.kind := by simpa using Ne.symm hcurrent
    exact .inr (htrack.blames (hr.offends hstuck rfl))

theorem consumeIdentifier :
    Follows tokens (Faces tokens (.name :: gs))
      (consumeIdentifier message : Compile w.settings Symbol) fun _ => Faces tokens gs := by
  refine changeReader fun r htrack hr => ?_
  unfold Reader.consumeIdentifier
  split
  · rename_i name hname
    have hnew : Goal.name.refine r.cleared.current.kind = some [.token (.identifier name)] := by
      rw [show r.cleared.current = r.current from rfl, hname]
      rfl
    exact .inl ⟨htrack.advance,
      htrack.cleared_advance ▸ (hr.refine hnew).take hname (by simp)⟩
  · rename_i hother
    have hnone : Goal.name.refine r.current.kind = none := by
      unfold Goal.refine
      split <;> simp_all
    exact .inr (htrack.blames (hr.offends (by simp) hnone))

theorem accept {R : Bool → Reader → Prop}
    (hyes : ∀ r, P r → r.current.kind = kind → R true r.advance)
    (hno : ∀ r, P r → r.current.kind ≠ kind → R false r) :
    Follows tokens P (accept kind : Compile w.settings Bool) R := by
  refine changeReader fun r htrack hr => .inl ?_
  unfold Reader.accept Reader.check
  by_cases hcurrent : r.current.kind = kind
  · rw [if_pos (by simpa using hcurrent)]
    exact ⟨htrack.advance, htrack.cleared_advance ▸ hyes _ hr hcurrent⟩
  · rw [if_neg (by simpa using hcurrent)]
    exact ⟨htrack, hno _ hr hcurrent⟩

/-- A token before a step. -/
theorem token {k : Compile w.settings γ} [Orderly k] (hkind : kind ≠ .endOfInput)
    (hk : Follows tokens (Faces tokens gs) k R) :
    Follows tokens (Faces tokens (.token kind :: gs))
      (Compile.consume kind message >>= fun _ => k) R :=
  (consume hkind).bind fun _ => hk

/-- A choice by the next token. -/
theorem choice (gs : List Goal) {yes no : Compile w.settings γ} [Orderly yes] [Orderly no]
    (hkind : kind ≠ .endOfInput)
    (htake : ∀ r, P r → r.current.kind = kind → Faces tokens (.token kind :: gs) r)
    (hyes : Follows tokens (Faces tokens gs) yes R)
    (hno : Follows tokens (fun r => P r ∧ r.current.kind ≠ kind) no R) :
    Follows tokens P (do if ← Compile.accept kind then yes else no) R := by
  have haccept : Follows tokens P (Compile.accept kind : Compile w.settings Bool) fun found r =>
      if found then Faces tokens gs r else P r ∧ r.current.kind ≠ kind :=
    accept (fun r hr hcurrent => (htake r hr hcurrent).take hcurrent hkind)
      fun r hr hcurrent => ⟨hr, hcurrent⟩
  refine haccept.bind fun found => ?_
  cases found with
  | true => exact hyes
  | false => exact hno

/-- After a report, the place is only lost if tokens are skipped. -/
theorem recover : Follows tokens P (recover : Compile w.settings Unit) fun _ => P := by
  intro s a t h htrack hs
  obtain ⟨_, _, hread, hrest⟩ := ok_of_run_bind h
  cases hread
  by_cases hpanic : s.reader.panicMode = true
  · rw [if_pos hpanic] at hrest
    obtain ⟨skipped, u, hsync, hnote⟩ := ok_of_run_bind hrest
    obtain ⟨token, _, hcurrent, hrest⟩ := ok_of_run_bind hnote
    cases hcurrent
    cases ok_of_run_change hrest
    obtain ⟨d, hfirst, hd⟩ := htrack.first hpanic
    have hkept := (Stable.first d).synchronize s.reader hfirst
    obtain ⟨n, _, heq, -⟩ := synchronize_eq s.reader
    have hsync := ok_of_run_change hsync
    dsimp only at hsync
    rw [heq] at hsync hkept
    cases hsync
    cases n with
    | zero => exact .inl ⟨⟨htrack.noErrors, htrack.faultless, nofun⟩, hs⟩
    | succ n =>
        exact .inr (.inr ⟨⟨_, _, List.mem_cons_self, Nat.succ_pos n⟩, d, hkept, hd⟩)
  · rw [if_neg hpanic] at hrest
    cases hrest
    exact .inl ⟨htrack, hs⟩

/-! ## Loops -/

variable {condition : Compile w.settings Bool} {step : Compile w.settings Unit}
  {again done : Reader → Prop}

theorem repeatWhile [Orderly condition] [Orderly step]
    (hcondition : Follows tokens P condition fun more r => if more then again r else done r)
    (hstep : Follows tokens again step fun _ => P) (budget : Nat) :
    Follows tokens P (repeatWhile condition step budget) fun _ => done := by
  induction budget with
  | zero => exact throw
  | succ budget ih =>
      unfold Compile.repeatWhile
      refine hcondition.bind fun more => ?_
      cases more with
      | true => exact hstep.bind fun _ => ih
      | false => exact pure_of fun _ hr => hr

theorem separated {item : Nat → Compile w.settings Unit} [∀ n, Orderly (item n)]
    {last more : Goal} {closing : Kind}
    (hitem : ∀ n, Follows tokens (Faces tokens (last :: more :: gs)) (item n) fun _ =>
      Faces tokens (more :: gs))
    (hmore : ∀ k, more.refine k =
      some (if k = .comma then [.token .comma, last, more] else [.token closing]))
    (budget count : Nat) :
    Follows tokens (Faces tokens (last :: more :: gs)) (separated item budget count) fun _ =>
      Faces tokens (.token closing :: gs) := by
  induction budget generalizing count with
  | zero => exact throw
  | succ budget ih =>
      unfold Compile.separated
      refine (hitem count).bind fun _ =>
        choice (last :: more :: gs) (by simp) ?_ (ih (count + 1)) ?_
      · intro r hr hcomma
        exact hr.refine (by rw [hmore, if_pos hcomma])
      · exact pure_of fun r hr => hr.1.refine (by rw [hmore, if_neg hr.2])

end Follows

end Compile

end LoxCompiler
