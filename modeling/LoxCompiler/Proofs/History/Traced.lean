import LoxCompiler.Proofs.History.Appends
import Mathlib.Data.List.Chain

/-! # The states that a run comes to

A run comes to one state after the other, one for each change that it makes. The same run under an
audit makes the same changes, up to the first one that the audit does not allow, which stops it. So
the audits tell apart which changes a run makes, and there is one list of states for all of them.
-/

set_option synthInstance.maxSize 4096

namespace LoxCompiler

variable {β : Type}

/-- An audit that looks at changes only. -/
structure Audit.Quiet (audit : Audit β) : Prop where
  expression : ∀ s, audit.expression s = true

/-- An audit allows some changes in turn, from a state on. -/
def Audit.Allows (audit : Audit β) (s : Session β) (later : List (Session β)) : Prop :=
  List.IsChain (fun s t => audit.change s t = true) (s :: later)

section Lists

variable {α : Type} {R : α → α → Prop} {s : α} {later more : List α}

theorem getLastD_append : (later ++ more).getLastD s = more.getLastD (later.getLastD s) := by
  induction later generalizing s with
  | nil => rfl
  | cons t later ih => rw [List.cons_append, List.getLastD_cons, List.getLastD_cons, ih]

/-- Two chains, of which the second one begins where the first one ends. -/
theorem isChain_cons_append :
    List.IsChain R (s :: (later ++ more)) ↔
      List.IsChain R (s :: later) ∧ List.IsChain R (later.getLastD s :: more) := by
  induction later generalizing s with
  | nil => simp
  | cons t later ih =>
      rw [List.cons_append, List.isChain_cons_cons, ih, List.isChain_cons_cons, and_assoc,
        List.getLastD_cons]

end Lists

namespace Compile

variable {w : Width β} {given : Function β → Prop} {α γ : Type}

/-- A step under each audit. -/
abbrev Audited (w : Width β) (α : Type) : Type := ∀ audit : Audit β, Compile (w.audited audit) α

/-- A run from a state comes to some later states in turn, the last one of which is the state after
it. A function that is added as a constant is given, or it was under construction in one of the
states. -/
structure Journey (given : Function β → Prop) (m : Audited w α) (s : Session β) (a : α)
    (t : Session β) (later : List (Session β)) : Prop where
  last : later.getLastD s = t
  chain : ∀ known : Function β → Prop, (∀ g, given g → known g) →
    (∀ u ∈ s :: later, ∀ f ∈ u.frames, known f.finish) →
    List.IsChain (Session.Appends known) (s :: later)
  allowed : ∀ audit : Audit β, audit.Quiet → audit.Allows s later → (m audit).run s = .ok (a, t)
  refused : ∀ audit : Audit β, audit.Quiet → ¬ audit.Allows s later →
    (m audit).run s = .error .auditFailed

/-- The runs of a step from some state come to states in turn. -/
def TracedFrom (given : Function β → Prop) (s : Session β) (m : Compile w.settings α)
    (m' : Audited w α) : Prop :=
  ∀ ⦃a t⦄, m.run s = .ok (a, t) → ∃ later, Journey given m' s a t later

/-- A step whose runs come to states in turn. -/
class Traced (given : Function β → Prop) (m : Compile w.settings α) (m' : Audited w α) : Prop where
  traced : ∀ s, TracedFrom given s m m'

variable {s t u : Session β} {a : α} {b : γ} {later more : List (Session β)}
  {m : Compile w.settings α} {m' : Audited w α}
  {k : α → Compile w.settings γ} {k' : α → Audited w γ}

/-! ## Runs -/

/-- A run that makes no change. -/
theorem Journey.still (h : ∀ audit : Audit β, audit.Quiet → (m' audit).run s = .ok (a, s)) :
    Journey given m' s a s [] where
  last := rfl
  chain _ _ _ := .singleton s
  allowed audit haudit _ := h audit haudit
  refused _ _ hrefused := (hrefused (.singleton s)).elim

/-- A run that makes one change. -/
theorem Journey.change {f : Session β → Except Fault (α × Session β)} (hf : f s = .ok (a, t))
    (h : s.Appends given t) : Journey given (fun _ => Compile.change f : Audited w α) s a t [t] where
  last := rfl
  chain known hgiven _ := .cons_cons (h.mono hgiven) (.singleton t)
  allowed audit _ hallows := by
    have hallowed : audit.change s t = true := (List.isChain_cons_cons.mp hallows).1
    unfold Compile.run Compile.change
    dsimp only
    rw [hf]
    dsimp only
    rw [if_pos hallowed]
  refused audit _ hrefused := by
    have hnot : ¬ audit.change s t = true := fun h => hrefused (.cons_cons h (.singleton t))
    unfold Compile.run Compile.change
    dsimp only
    rw [hf]
    dsimp only
    rw [if_neg hnot]

/-- The state after a run is one of the states. -/
theorem Journey.mem (h : Journey given m' s a t later) : t ∈ s :: later := by
  rw [← h.last]
  exact List.getLastD_mem_cons

/-- The states of two runs, one after the other. -/
theorem Journey.subset (h : Journey given m' s a t later) (more : List (Session β)) :
    s :: later ⊆ s :: (later ++ more) ∧ t :: more ⊆ s :: (later ++ more) := by
  have hfirst : s :: later ⊆ s :: (later ++ more) :=
    List.cons_subset_cons s (List.subset_append_left later more)
  refine ⟨hfirst, List.cons_subset.mpr ⟨hfirst h.mem, fun u hu => ?_⟩⟩
  exact List.mem_cons_of_mem _ (List.mem_append_right later hu)

/-- One run after another one, for which what was under construction in the first one is given. -/
theorem Journey.bind {given' : Function β → Prop} (hm : Journey given m' s a t later)
    (hk : Journey given' (k' a) t b u more)
    (hgiven' : ∀ g, given' g → given g ∨ ∃ x ∈ s :: later, ∃ f ∈ x.frames, f.finish = g) :
    Journey given (fun audit => m' audit >>= fun a => k' a audit) s b u (later ++ more) where
  last := by rw [getLastD_append, hm.last, hk.last]
  chain known hgiven hknown := by
    obtain ⟨hfirst, hsecond⟩ := hm.subset more
    rw [isChain_cons_append, hm.last]
    refine ⟨hm.chain known hgiven fun u hu => hknown u (hfirst hu),
      hk.chain known (fun g hg => ?_) fun u hu => hknown u (hsecond hu)⟩
    rcases hgiven' g hg with hg | ⟨x, hx, f, hf, rfl⟩
    · exact hgiven g hg
    · exact hknown x (hfirst hx) f hf
  allowed audit haudit hallows := by
    unfold Audit.Allows at hallows
    rw [isChain_cons_append, hm.last] at hallows
    rw [run_bind_of_ok (hm.allowed audit haudit hallows.1)]
    exact hk.allowed audit haudit hallows.2
  refused audit haudit hrefused := by
    by_cases hfirst : audit.Allows s later
    · rw [run_bind_of_ok (hm.allowed audit haudit hfirst)]
      refine hk.refused audit haudit fun hsecond => hrefused ?_
      unfold Audit.Allows
      rw [isChain_cons_append, hm.last]
      exact ⟨hfirst, hsecond⟩
    · rw [run_bind, hm.refused audit haudit hfirst]
      rfl

theorem Journey.appends (h : Journey given m' s a t later) :
    List.IsChain (Session.Appends fun _ => True) (s :: later) :=
  h.chain _ (fun _ _ => trivial) fun _ _ _ _ => trivial

/-- A run reads on in each of its states. -/
theorem Journey.leadsTo_of_mem (h : Journey given m' s a t later) (hu : u ∈ s :: later) :
    s.reader.LeadsTo u.reader := by
  rcases List.mem_cons.mp hu with rfl | hu
  · exact .refl _
  · exact h.appends.cons_induction (fun u => s.reader.LeadsTo u.reader) later
      (fun _ _ happends hread => hread.trans happends.reader) (.refl _) u hu

theorem Journey.leadsTo (h : Journey given m' s a t later) : s.reader.LeadsTo t.reader :=
  h.leadsTo_of_mem h.mem

theorem TracedFrom.bind (hm : TracedFrom given s m m')
    (hk : ∀ a t, m.run s = .ok (a, t) → TracedFrom given t (k a) (k' a)) :
    TracedFrom given s (m >>= k) fun audit => m' audit >>= fun a => k' a audit := by
  intro b u hrun
  obtain ⟨a, t, hfirst, hsecond⟩ := ok_of_run_bind hrun
  obtain ⟨later, hlater⟩ := hm hfirst
  obtain ⟨more, hmore⟩ := hk a t hfirst hsecond
  exact ⟨later ++ more, hlater.bind hmore fun _ => .inl⟩

/-! ## Building blocks -/

theorem tracedFrom_change {f : Session β → Except Fault (α × Session β)}
    (hf : ∀ a t, f s = .ok (a, t) → s.Appends given t) :
    TracedFrom given s (change f : Compile w.settings α) fun _ => change f := by
  intro a t hrun
  have hchange := ok_of_run_change hrun
  exact ⟨[t], .change hchange (hf a t hchange)⟩

theorem traced_change {f : Session β → Except Fault (α × Session β)}
    (hf : ∀ s a t, f s = .ok (a, t) → s.Appends given t) :
    Traced given (change f : Compile w.settings α) fun _ => change f :=
  ⟨fun s => tracedFrom_change (hf s)⟩

instance traced_pure (a : α) : Traced given (pure a : Compile w.settings α) fun _ => pure a where
  traced s b t hrun := by
    rw [run_pure] at hrun
    cases hrun
    exact ⟨[], .still fun _ _ => rfl⟩

instance (m : Compile w.settings α) (m' : Audited w α) (k : α → Compile w.settings γ)
    (k' : α → Audited w γ) [hm : Traced given m m'] [hk : ∀ a, Traced given (k a) (k' a)] :
    Traced given (m >>= k) fun audit => m' audit >>= fun a => k' a audit :=
  ⟨fun s => (hm.traced s).bind fun a t _ => (hk a).traced t⟩

/-- A step that goes on by cases on what it has read. -/
theorem Traced.bind [Traced given m m'] (hk : ∀ a, Traced given (k a) (k' a)) :
    Traced given (m >>= k) fun audit => m' audit >>= fun a => k' a audit :=
  inferInstance

instance {p : Prop} [Decidable p] (m n : Compile w.settings α) (m' n' : Audited w α)
    [hm : Traced given m m'] [hn : Traced given n n'] :
    Traced given (if p then m else n) fun audit => if p then m' audit else n' audit := by
  by_cases hp : p
  · simpa only [if_pos hp] using hm
  · simpa only [if_neg hp] using hn

instance (o : Option γ) (k : γ → Compile w.settings Unit) (k' : γ → Audited w Unit)
    [hk : ∀ a, Traced given (k a) (k' a)] :
    Traced given (o.forM k) fun audit => o.forM fun a => k' a audit := by
  cases o with
  | none => exact traced_pure ()
  | some a => exact hk a

instance traced_forM (as : List γ) (k : γ → Compile w.settings Unit) (k' : γ → Audited w Unit)
    [hk : ∀ a, Traced given (k a) (k' a)] :
    Traced given (as.forM k) fun audit => as.forM fun a => k' a audit := by
  induction as with
  | nil => exact traced_pure ()
  | cons a as ih =>
      exact inferInstanceAs (Traced given (k a >>= fun _ => as.forM k)
        fun audit => k' a audit >>= fun _ => as.forM fun a => k' a audit)

instance : Traced given (read : Compile w.settings (Session β)) fun _ => read where
  traced s a t hrun := by
    rw [run_read] at hrun
    cases hrun
    exact ⟨[], .still fun _ _ => rfl⟩

instance traced_throw (fault : Fault) :
    Traced given (throw fault : Compile w.settings α) fun _ => throw fault where
  traced s a t hrun := by
    rw [run_throw] at hrun
    cases hrun

instance (condition : Compile w.settings Bool) (condition' : Audited w Bool)
    (step : Compile w.settings Unit) (step' : Audited w Unit) (budget : Nat)
    [Traced given condition condition'] [Traced given step step'] :
    Traced given (repeatWhile condition step budget)
      fun audit => repeatWhile (condition' audit) (step' audit) budget := by
  induction budget with
  | zero => exact traced_throw .outOfBudget
  | succ budget ih =>
      unfold repeatWhile
      infer_instance

/-! ## Reading tokens -/

/-- A change of anything but the functions and the reader appends nothing. -/
theorem traced_change_of_eq {f : Session β → Except Fault (α × Session β)}
    (hf : ∀ s a t, f s = .ok (a, t) → t.reader = s.reader ∧ t.frames = s.frames) :
    Traced given (change f : Compile w.settings α) fun _ => change f :=
  traced_change fun s a t h => by
    obtain ⟨hreader, hframes⟩ := hf s a t h
    exact ⟨hreader ▸ .refl _, .keep (hframes ▸ Frames.sameLines_refl _)⟩

theorem traced_changeReader {f : Reader → α × Reader} (hf : ∀ r : Reader, r.LeadsTo (f r).2) :
    Traced given (changeReader f : Compile w.settings α) fun _ => changeReader f :=
  traced_change fun s a t h => by
    cases h
    exact ⟨hf s.reader, .keep (Frames.sameLines_refl _)⟩

theorem traced_modifyReader {f : Reader → Reader} (hf : ∀ r : Reader, r.LeadsTo (f r)) :
    Traced given (modifyReader f : Compile w.settings Unit) fun _ => modifyReader f :=
  traced_changeReader hf

theorem journey_startExpression (s : Session β) :
    Journey given (fun _ => startExpression : Audited w Unit) s () s [] :=
  .still fun audit haudit => by
    unfold run startExpression
    dsimp only
    rw [if_pos (haudit.expression s)]

instance : Traced given (startExpression : Compile w.settings Unit) fun _ => startExpression where
  traced s a t hrun := by
    have hstill : Except.ok ((), s) = .ok (a, t) := hrun
    cases hstill
    exact ⟨[], journey_startExpression s⟩

instance (quantity : Quantity) :
    Traced given (measure quantity : Compile w.settings Unit) fun _ => measure quantity :=
  inferInstanceAs (Traced given (pure () : Compile w.settings Unit) fun _ => pure ())

instance : Traced given (previous : Compile w.settings _) fun _ => previous := by
  unfold previous
  infer_instance

instance : Traced given (current : Compile w.settings _) fun _ => current := by
  unfold current
  infer_instance

instance : Traced given (advance : Compile w.settings Unit) fun _ => advance := by
  unfold advance
  exact traced_modifyReader fun r _ hP => hP.advance r

instance (kind : TokenKind Symbol) :
    Traced given (check kind : Compile w.settings Bool) fun _ => check kind := by
  unfold check
  infer_instance

instance (kind : TokenKind Symbol) :
    Traced given (accept kind : Compile w.settings Bool) fun _ => accept kind :=
  traced_changeReader fun r _ hP => hP.accept r kind

instance (kind : TokenKind Symbol) (message : String) :
    Traced given (consume kind message : Compile w.settings Unit)
      fun _ => consume kind message := by
  unfold consume
  exact traced_modifyReader fun r _ hP => hP.consume r kind message

instance (message : String) : Traced given (consumeIdentifier message : Compile w.settings Symbol)
    fun _ => consumeIdentifier message :=
  traced_changeReader fun r _ hP => hP.consumeIdentifier r message

instance (problem : Diagnostic.Problem) :
    Traced given (report problem : Compile w.settings Unit) fun _ => report problem := by
  unfold report
  exact traced_modifyReader fun r _ hP => hP.reportAt r _ problem

instance (problem : Diagnostic.Problem) :
    Traced given (reportCurrent problem : Compile w.settings Unit)
      fun _ => reportCurrent problem := by
  unfold reportCurrent
  exact traced_modifyReader fun r _ hP => hP.reportAt r _ problem

instance (event : Event) :
    Traced given (note event : Compile w.settings Unit) fun _ => note event :=
  traced_change_of_eq fun _ _ _ h => by
    cases h
    exact ⟨rfl, rfl⟩

instance : Traced given (recover : Compile w.settings Unit) fun _ => recover := by
  have hsynchronize : Traced given (changeReader (·.synchronize) : Compile w.settings Nat)
      fun _ => changeReader (·.synchronize) :=
    traced_changeReader fun r _ hP => hP.synchronize r
  unfold recover
  infer_instance

instance (item : Nat → Compile w.settings Unit)
    (item' : Nat → Audited w Unit) (budget count : Nat)
    [∀ n, Traced given (item n) (item' n)] :
    Traced given (separated item budget count)
      fun audit => separated (fun n => item' n audit) budget count := by
  induction budget generalizing count with
  | zero => exact traced_throw .outOfBudget
  | succ budget ih =>
      unfold separated
      infer_instance

end Compile

end LoxCompiler
