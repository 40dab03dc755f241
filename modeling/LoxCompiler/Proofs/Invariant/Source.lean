import LoxCompiler.Proofs.Invariant.Constructs
import LoxCompiler.Proofs.Acceptance
import LoxCompiler.Proofs.Safety.Source

/-! # The invariant of a compilation

Which changes of the state a compilation makes is told by audits: it makes a change if an audit that
refuses nothing else stops it. Every change is proper, so the invariant of the functions under
construction holds in every state up to the end of the script. Over any number of changes, the depth
of a local is that of the scope that declares it.
-/

namespace LoxCompiler

open Compile

variable {β : Type} {w : Width β} {limits : Limits} {source : Bytes} {table : SymbolTable}

namespace Session

/-- The locals of the functions under construction, innermost function first. -/
def outlines (s : Session β) : List Outline := s.frames.map Frame.outline

/-- Over proper changes, a local stays tied to the depth that it is tied to at first, and it keeps
this depth once it has it. -/
theorem tied_of_isChain {level slot depth : Nat} {s : Session β} {later : List (Session β)}
    (h : List.IsChain (Session.Proper limits) (s :: later))
    (htied : Outline.Tied s.outlines level slot depth)
    (hthere : ∀ u ∈ later, Outline.depthAt? u.outlines level slot ≠ none) :
    (∀ u ∈ later, Outline.Tied u.outlines level slot depth ∧
      (Outline.depthAt? s.outlines level slot = some (some depth) →
        Outline.depthAt? u.outlines level slot = some (some depth))) ∧
    later.Pairwise fun u v => Outline.depthAt? u.outlines level slot = some (some depth) →
      Outline.depthAt? v.outlines level slot = some (some depth) := by
  induction later generalizing s with
  | nil => exact ⟨fun _ hu => (List.not_mem_nil hu).elim, .nil⟩
  | cons t later ih =>
      obtain ⟨hproper, hrest⟩ := List.isChain_cons_cons.mp h
      obtain ⟨ht, hlater⟩ := List.forall_mem_cons.mp hthere
      have hstep : Outline.Tied t.outlines level slot depth ∧
          (Outline.depthAt? s.outlines level slot = some (some depth) →
            Outline.depthAt? t.outlines level slot = some (some depth)) := by
        rcases hproper with ⟨-, hempty⟩ | ⟨-, hs, -, hmoves⟩
        · refine absurd ?_ ht
          rw [outlines, hempty]
          rfl
        · exact hmoves.tied hs.outlines htied ht
      obtain ⟨hall, hpairs⟩ := ih hrest hstep.1 hlater
      refine ⟨List.forall_mem_cons.mpr ⟨hstep, fun u hu => ?_⟩, List.pairwise_cons.mpr ⟨?_, hpairs⟩⟩
      · exact ⟨(hall u hu).1, fun hset => (hall u hu).2 (hstep.2 hset)⟩
      · exact fun u hu => (hall u hu).2

end Session

namespace Compilation

open Classical in
/-- An audit that refuses one change only. -/
noncomputable def refusing (s t : Session β) : Audit β where
  change s' t' := decide (¬ (s' = s ∧ t' = t))
  expression _ := true

/-- While a source is compiled, the state changes like this: an audit that refuses this change only
stops the compilation. -/
def Changes (w : Width β) (source : Bytes) (table : SymbolTable) (s t : Session β) : Prop :=
  ofSourceWith (w.audited (refusing s t)) source table = .error .auditFailed

/-- The invariant holds before the first token, if there is room for a receiver. -/
theorem sound_start (hroom : Limits.admits limits.locals 1) (names : ImplicitNames)
    (items : List (Scanned Symbol)) :
    (start names items : Session β).Sound limits ⟨true, ⟨0, [.script]⟩⟩ where
  frames := ⟨⟨rfl, .begin hroom .script⟩, rfl⟩
  settled _ f hf l hl := by
    cases hf
    cases hl
    simp
  nesting := rfl

/-- Under an audit that allows all proper changes, and expressions where as many classes as methods
are open, every source is compiled as without one. -/
theorem ofSourceWith_audited (audit : Audit β) [audit.Tolerant w.limits]
    (hroom : Limits.admits w.limits.locals 1) (source : Bytes) (table : SymbolTable) :
    ofSourceWith (w.audited audit) source table = ofSourceWith w.settings source table := by
  obtain ⟨f, t, hrun⟩ := runs_ofItems (w := w) (implicitNames table).1
    (Scanned.internAll (Scanned.ofSource source) (implicitNames table).2).1
  have haudited : ofItems (w.audited audit) (implicitNames table).1
      (Scanned.internAll (Scanned.ofSource source) (implicitNames table).2).1 = .ok (f, t) :=
    (obeys_script _ (sound_start hroom _ _) hrun).1
  unfold ofSourceWith
  dsimp only
  rw [hrun, haudited]

/-- At first, a compilation looks for the end of the input. -/
theorem changes_first (w : Width β) (source : Bytes) (table : SymbolTable) :
    Changes w source table (first source table)
      { first source table with
        reader := ((first source table : Session β).reader.accept .endOfInput).2 } := by
  let s : Session β := first source table
  have hstop : (accept .endOfInput : Compile (w.audited (refusing s
      { s with reader := (s.reader.accept .endOfInput).2 })) Bool).run s = .error .auditFailed := by
    unfold accept changeReader change run
    simp [refusing]
  have hscript (budget : Nat) : (script (budget + 1) : Compile (w.audited (refusing s
      { s with reader := (s.reader.accept .endOfInput).2 })) (Function β)).run s =
        .error .auditFailed := by
    unfold script repeatWhile
    rw [run_bind, run_bind, run_bind, hstop]
    rfl
  have hitems : ofItems (w.audited (refusing s
      { s with reader := (s.reader.accept .endOfInput).2 })) (implicitNames table).1
        (items source table) = .error .auditFailed := hscript s.reader.remaining
  unfold items at hitems
  unfold Changes ofSourceWith
  dsimp only
  rw [hitems]
  rfl

/-- Every change of the state is proper. -/
theorem Changes.proper {s t : Session β} (hroom : Limits.admits w.limits.locals 1)
    (h : Changes w source table s t) : s.Proper w.limits t := by
  by_contra hnot
  have : (refusing s t).Lenient w.limits :=
    { change := fun {s' t'} hproper => by
        have hne : ¬ (s' = s ∧ t' = t) := by
          rintro ⟨rfl, rfl⟩
          exact hnot hproper
        simpa [refusing] using hne
      expression := fun _ => rfl }
  obtain ⟨c, hc⟩ := runs_ofSourceWith (w := w) source table
  have haudited := ofSourceWith_audited (refusing s t) hroom source table
  rw [hc] at haudited
  exact nomatch haudited.symm.trans h

/-- While a source is compiled to bytes, the invariant of the functions under construction holds at
the start and before and after each change, until the script is finished: no audit that allows the
proper changes stops the compilation. A local that a change brings up is tied to the depth of the
scope that declares it as long as it is there, and it keeps this depth once it has it. -/
theorem sound_of_changes (source : Bytes) (table : SymbolTable) :
    (∀ audit : Audit UInt8, audit.Lenient .byte →
      ofSourceWith (Width.byte.audited audit) source table = ofSource source table) ∧
    Frames.Sound .byte (implicitNames table).1 (first source table : Session UInt8).frames ∧
    (∀ s t, Changes .byte source table s t → s.frames.length ≤ 1 ∧ t.frames = [] ∨
      Frames.Sound .byte s.names s.frames ∧ Frames.Sound .byte t.names t.frames) ∧
    ∀ s t later level slot, List.IsChain (Changes .byte source table) (s :: t :: later) →
      Outline.depthAt? s.outlines level slot = none →
      (∀ u ∈ t :: later, Outline.depthAt? u.outlines level slot ≠ none) →
      ∃ depth, Outline.scopeAt? t.outlines level = some depth ∧
        (∀ u ∈ t :: later, Outline.Tied u.outlines level slot depth) ∧
        (t :: later).Pairwise fun u v => Outline.depthAt? u.outlines level slot = some (some depth) →
          Outline.depthAt? v.outlines level slot = some (some depth) := by
  have hroom : Limits.admits Width.byte.limits.locals 1 = true := rfl
  refine ⟨fun audit hlenient => ?_, (sound_start hroom _ _).frames, fun s t h => ?_, ?_⟩
  · have : audit.Lenient Width.byte.limits := hlenient
    exact ofSourceWith_audited audit hroom source table
  · exact (h.proper hroom).imp_right fun h => ⟨h.2.1, h.2.2.1⟩
  · intro s t later level slot hchain hnew hthere
    have hproper := hchain.imp fun s t h => Changes.proper hroom h
    obtain ⟨hfirst, hrest⟩ := List.isChain_cons_cons.mp hproper
    obtain ⟨ht, hlater⟩ := List.forall_mem_cons.mp hthere
    rcases hfirst with ⟨-, hempty⟩ | ⟨-, hs, -, hmoves⟩
    · refine absurd ?_ ht
      rw [Session.outlines, hempty]
      rfl
    · obtain ⟨depth, hdepth, htied⟩ := hmoves.tied_fresh hs.outlines hnew ht
      obtain ⟨hall, hpairs⟩ := Session.tied_of_isChain hrest htied hlater
      exact ⟨depth, hdepth, List.forall_mem_cons.mpr ⟨htied, fun u hu => (hall u hu).1⟩,
        List.pairwise_cons.mpr ⟨fun u hu => (hall u hu).2, hpairs⟩⟩

end Compilation

end LoxCompiler
