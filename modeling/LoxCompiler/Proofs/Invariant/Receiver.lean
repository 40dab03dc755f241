import LoxCompiler.Proofs.Invariant.Source
import LoxCompiler.Proofs.PostOrder.Entries

/-! # Where expressions start

Two stacks tell what an expression stands in: one of classes, which says whether there is a receiver
at all, and one of functions, in which its name is looked up. Wherever an expression starts, in
sources with errors as well, they agree: as many classes are open as methods. So if a class is open,
then the receiver is a local of some function, and its name never means a global.
-/

namespace LoxCompiler

open Compile

variable {β : Type} {w : Width β} {limits : Limits} {source : Bytes} {table : SymbolTable}

theorem Outline.AllSound.of_mem {names : ImplicitNames} {os : List Outline} {o : Outline}
    (h : Outline.AllSound limits names os) (ho : o ∈ os) : o.Sound limits names := by
  induction os with
  | nil => exact h.elim
  | cons o' os ih =>
      rcases List.mem_cons.mp ho with rfl | ho
      · exact h.head
      · cases os with
        | nil => cases ho
        | cons next os => exact ih h.2.2 ho

/-- The receiver is a local of every method. -/
theorem Frames.Sound.this_mem {names : ImplicitNames} {fs : Frames β} {f : Frame β}
    (h : Frames.Sound limits names fs) (hf : f ∈ fs) (hkind : f.kind.isMethod = true) :
    names.this ∈ f.locals.map Local.name := by
  obtain ⟨newer, hlocals, -⟩ := (h.outlines.of_mem (List.mem_map_of_mem hf)).receiver
  have hnames : f.locals.map Local.name = f.outline.locals.map Prod.fst := by
    simp [Frame.outline, List.map_map, Function.comp_def]
  have hreceiver : f.outline.kind.receiver names = names.this := by
    change f.kind.receiver names = names.this
    cases hf' : f.kind <;> simp_all [FunctionKind.isMethod, FunctionKind.receiver]
  rw [hnames, hlocals, hreceiver]
  simp

namespace Session

/-- As many classes are open as methods. If there is one, then its receiver is looked up, however
much has been read in the meantime, and found as a local or as a captured variable. -/
structure Housed (w : Width β) (s : Session β) : Prop where
  classes_eq : s.classes.length = s.frames.countP (·.kind.isMethod)
  receiver : s.classes ≠ [] → ∀ reader, ∃ found t,
    (access s.names.this : Compile w.settings Access).run { s with reader } = .ok (found, t) ∧
      (found.get = .getLocal ∨ found.get = .getUpvalue) ∧
      (Compile.receiver : Compile w.settings Unit).run { s with reader } =
        (emitWith found.get found.operand : Compile w.settings Unit).run t

/-- A name of which some function has a local means no global. -/
theorem exists_access (w : Width β) {s : Session β} {name : Symbol} {f : Frame β}
    {outer : Frames β} (hframes : s.frames = f :: outer)
    (hname : Frames.isGlobal s.frames name = false) : ∃ found t,
      (access name : Compile w.settings Access).run s = .ok (found, t) ∧
        (found.get = .getLocal ∨ found.get = .getUpvalue) := by
  rw [access_eq, resolveLocal_eq, bind_assoc, run_bind_of_ok (run_frame hframes)]
  cases hlocal : f.resolveLocal name with
  | some result =>
      obtain ⟨slot, initialized⟩ := result
      have hslot : ∃ t, (localSlot (some (slot, initialized)) :
          Compile w.settings (Option Nat)).run s = .ok (some slot, t) := by
        cases initialized <;> exact ⟨_, rfl⟩
      obtain ⟨t, ht⟩ := hslot
      rw [run_bind_of_ok ht]
      exact ⟨_, _, rfl, .inl rfl⟩
  | none =>
      have hnone : (localSlot none : Compile w.settings (Option Nat)).run s = .ok (none, s) := rfl
      rw [run_bind_of_ok hnone]
      show ∃ found t, (resolveUpvalue name >>= accessOuter name :
        Compile w.settings Access).run s = .ok (found, t) ∧ _
      have hanswer : (s.frames.resolveUpvalue w.limits name).2 ≠ .ok none := by
        rw [hframes] at hname ⊢
        have hno : name ∉ f.locals.map Local.name :=
          Local.find?_eq_none_iff.mp (Option.map_eq_none_iff.mp hlocal)
        rw [Frames.isGlobal, List.all_cons, decide_eq_true hno, Bool.true_and] at hname
        rw [ne_eq, Frames.resolveUpvalue_eq_none_iff, Frames.isGlobal, hname]
        exact Bool.false_ne_true
      have hcapture : (captureVariable name : Compile w.settings _).run s =
          .ok ((s.frames.resolveUpvalue w.limits name).2,
            { s with frames := (s.frames.resolveUpvalue w.limits name).1 }) := by
        rw [captureVariable_eq]
        rfl
      rw [resolveUpvalue_eq, bind_assoc, run_bind_of_ok hcapture]
      generalize (s.frames.resolveUpvalue w.limits name).2 = answer at hanswer
      rcases answer with problem | (_ | index)
      · exact ⟨_, _, rfl, .inr rfl⟩
      · exact (hanswer rfl).elim
      · exact ⟨_, _, rfl, .inr rfl⟩

theorem Sound.housed {σ : Stage} {s : Session β} (h : s.Sound w.limits σ)
    (hσ : σ.nesting.Balanced) : s.Housed w := by
  have hcount : s.classes.length = s.frames.countP (·.kind.isMethod) := by
    have hclasses := hσ.classes_eq
    rw [← h.nesting, Session.nesting, List.countP_map] at hclasses
    exact hclasses
  refine ⟨hcount, fun hopen reader => ?_⟩
  obtain ⟨f, outer, hframes⟩ := h.exists_cons
  have hname : Frames.isGlobal s.frames s.names.this = false := by
    obtain ⟨g, hg, hkind⟩ := List.countP_pos_iff.mp (hcount ▸ List.length_pos_of_ne_nil hopen)
    rw [Frames.isGlobal, List.all_eq_false]
    exact ⟨g, hg, by simpa using h.frames.this_mem hg hkind⟩
  obtain ⟨found, t, hrun, hget⟩ := exists_access w (s := { s with reader }) hframes hname
  refine ⟨found, t, hrun, hget, ?_⟩
  unfold Compile.receiver loadVariable
  rw [run_bind_of_ok (run_read _)]
  dsimp only
  rw [if_neg (by simpa using hopen), run_bind_of_ok hrun]

end Session

namespace Compilation

/-! ## All sources -/

open Classical in
/-- An audit that refuses only the expressions that start in one state. -/
noncomputable def refusingExpression (s : Session β) : Audit β where
  change _ _ := true
  expression s' := decide (s' ≠ s)

/-- While a source is compiled, an expression starts in this state: an audit that refuses only this
stops the compilation. -/
def Enters (w : Width β) (source : Bytes) (table : SymbolTable) (s : Session β) : Prop :=
  ofSourceWith (w.audited (refusingExpression s)) source table = .error .auditFailed

/-- No audit that allows expressions in all states that agree on what is open stops a
compilation. -/
theorem ofSourceWith_housed (hroom : Limits.admits w.limits.locals 1) (audit : Audit β)
    (source : Bytes) (table : SymbolTable) (hchange : ∀ s t, audit.change s t = true)
    (hexpression : ∀ s : Session β, s.Housed w → audit.expression s = true) :
    ofSourceWith (w.audited audit) source table = ofSourceWith w.settings source table := by
  have : audit.Tolerant w.limits :=
    { change := fun _ => hchange _ _
      expression := fun hσ hs => hexpression _ (hs.housed hσ) }
  exact ofSourceWith_audited audit hroom source table

theorem Enters.housed {s : Session β} (hroom : Limits.admits w.limits.locals 1)
    (h : Enters w source table s) : s.Housed w := by
  by_contra hnot
  have haudited := ofSourceWith_housed hroom (refusingExpression s) source table (fun _ _ => rfl)
    fun s' hs' => by
      have hne : s' ≠ s := by
        rintro rfl
        exact hnot hs'
      simpa [refusingExpression] using hne
  obtain ⟨c, hc⟩ := runs_ofSourceWith (w := w) source table
  rw [hc] at haudited
  exact nomatch haudited.symm.trans h

end Compilation

end LoxCompiler
