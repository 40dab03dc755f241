import LoxCompiler.Proofs.History.Constructs
import LoxCompiler.Proofs.History.Tables
import LoxCompiler.Proofs.History.Tokens
import LoxCompiler.Proofs.Invariant.Source

/-! # The line tables of a source

The states that a compilation comes to are told by audits, like its changes. In all of them the line
tables of the functions under construction are complete and in order, and each line is that of the
last token taken when its cell was emitted. A finished function is what one under construction comes
to, so all this holds of its lines as well.
-/

namespace LoxCompiler

open Compile Scanned

variable {β : Type} {w : Width β} {source : Bytes} {table : SymbolTable}

/-- A function has one line for each cell. The lines do not decrease, and they are lines of the
source, counted from one. -/
structure Function.Lined (source : Bytes) (f : Function β) : Prop where
  length : f.lines.length = f.code.length
  sorted : f.lines.Pairwise (· ≤ ·)
  within : ∀ n ∈ f.lines, 1 ≤ n ∧ n ≤ 1 + source.count (byteOf '\n')

/-- A function is what one under construction in some states comes to. -/
def Function.DraftedIn (states : List (Session β)) (g : Function β) : Prop :=
  ∃ s ∈ states, ∃ f ∈ s.frames, f.finish = g

theorem Frame.Recorded.lined {given : Function β → Prop} {line : Nat} {f : Frame β}
    (h : f.Recorded given line) (hline : line ≤ 1 + source.count (byteOf '\n')) :
    f.finish.Lined source where
  length := h.size
  sorted := h.sorted
  within n hn := ⟨(h.within n hn).1, (h.within n hn).2.trans hline⟩

mutual

/-- What a function has and hands down to the functions among its constants, all functions nested in
it have. -/
theorem Function.forall_family {P : Function β → Prop}
    (hP : ∀ f, P f → ∀ g, .function g ∈ f.constants → P g) :
    ∀ f : Function β, P f → ∀ g ∈ f.family, P g
  | ⟨name, arity, upvalueCount, code, lines, constants⟩, hf, g, hg => by
      rw [Function.family] at hg
      rcases List.mem_cons.mp hg with rfl | hg
      · exact hf
      · exact Constant.forall_families hP constants (hP _ hf) g hg

theorem Constant.forall_families {P : Function β → Prop}
    (hP : ∀ f, P f → ∀ g, .function g ∈ f.constants → P g) :
    ∀ constants : List (Constant β), (∀ f, .function f ∈ constants → P f) →
      ∀ g ∈ Constant.families constants, P g
  | [], _, _, hg => (List.not_mem_nil hg).elim
  | .function f :: constants, hf, g, hg => by
      rw [Constant.families] at hg
      rcases List.mem_append.mp hg with hg | hg
      · exact Function.forall_family hP f (hf f List.mem_cons_self) g hg
      · exact Constant.forall_families hP constants
          (fun f h => hf f (List.mem_cons_of_mem _ h)) g hg
  | .number _ :: constants, hf, g, hg =>
      Constant.forall_families hP constants (fun f h => hf f (List.mem_cons_of_mem _ h)) g hg
  | .string _ :: constants, hf, g, hg =>
      Constant.forall_families hP constants (fun f h => hf f (List.mem_cons_of_mem _ h)) g hg

end

namespace Compilation

/-! ## The states of a compilation -/

/-- The states that a compilation comes to, in turn. It starts in the first one, it changes from
each one to the next one, and it makes no other change. -/
structure History (w : Width β) (source : Bytes) (table : SymbolTable)
    (states : List (Session β)) : Prop where
  first : states.head? = some (first source table)
  changes : ∀ s t, Changes w source table s t ↔ [s, t] <:+: states

/-- The audit that refuses one change allows all others. -/
theorem allows_refusing {s t u : Session β} {later : List (Session β)} :
    (refusing s t).Allows u later ↔ ¬ [s, t] <:+: u :: later := by
  unfold Audit.Allows
  rw [List.isChain_iff_forall_rel_of_append_cons_cons]
  constructor
  · rintro h ⟨before, after, heq⟩
    have hsplit : u :: later = before ++ s :: t :: after :=
      heq ▸ List.append_assoc before [s, t] after
    simpa [refusing] using h hsplit
  · intro h a b before after heq
    have hother : ¬ (a = s ∧ b = t) := by
      rintro ⟨rfl, rfl⟩
      exact h ⟨before, after, by rw [heq]; simp⟩
    simpa [refusing] using hother

theorem history_of_journey {given : Function β → Prop} {f : Function β} {t : Session β}
    {later : List (Session β)}
    (h : Journey given
      (fun _ => script ((first source table : Session β).reader.remaining + 1) :
        Audited w (Function β)) (first source table) f t later) :
    History w source table (first source table :: later) where
  first := rfl
  changes s u := by
    have hquiet : (refusing s u).Quiet := ⟨fun _ => rfl⟩
    unfold Changes
    rw [ofSourceWith_eq]
    -- The audit stops the run exactly if the run comes to this change.
    by_cases hchange : [s, u] <:+: first source table :: later
    · rw [h.refused _ hquiet fun hallows => allows_refusing.mp hallows hchange]
      exact iff_of_true rfl hchange
    · rw [h.allowed _ hquiet (allows_refusing.mpr hchange)]
      exact iff_of_false (by simp [Except.bind]) hchange

/-! ## Line tables -/

/-- The reader of a state has taken tokens of a source, and the line tables of the functions under
construction go up to the last one of them. -/
structure Recorded (source : Bytes) (table : SymbolTable) (given : Function β → Prop)
    (s : Session β) : Prop where
  reader : ∃ taken, s.reader.Took (items source table) taken
  frames : ∀ f ∈ s.frames, f.Recorded given s.reader.previous.position.line

theorem lineAt?_first (level offset : Nat) :
    Frames.lineAt? (first source table : Session β).frames level offset = none := by
  cases level <;> rfl

theorem recorded_first {given : Function β → Prop} :
    Recorded source table given (first source table) where
  reader := ⟨[], Reader.took_start (ended_items source table)⟩
  frames f hf := by
    obtain rfl := List.mem_singleton.mp hf
    exact .of_empty rfl rfl rfl

/-- A change keeps the line tables in order, since a reader does not go back. -/
theorem Recorded.appends {given : Function β → Prop} {s t : Session β}
    (h : Recorded source table given s) (happends : s.Appends given t) :
    Recorded source table given t := by
  obtain ⟨taken, htaken⟩ := h.reader
  obtain ⟨more, hmore⟩ := htaken.leadsTo (ended_items source table) happends.reader
  refine ⟨⟨_, hmore⟩, fun f hf => ?_⟩
  exact (happends.frames.recorded (previous_line_bounds htaken).1 h.frames f hf).mono
    (previous_line_le htaken happends.reader)

theorem Recorded.lined {given : Function β → Prop} {s : Session β}
    (h : Recorded source table given s) {f : Frame β} (hf : f ∈ s.frames) :
    f.finish.Lined source := by
  obtain ⟨taken, htaken⟩ := h.reader
  exact (h.frames f hf).lined (previous_line_bounds htaken).2

theorem recorded_of_isChain {given : Function β → Prop} {later : List (Session β)}
    (h : List.IsChain (Session.Appends given) (first source table :: later)) :
    ∀ s ∈ first source table :: later, Recorded source table given s :=
  List.forall_mem_cons.mpr ⟨recorded_first,
    h.cons_induction _ _ (fun _ _ happends hs => hs.appends happends) recorded_first⟩

/-- A change emits a cell at some offset of the function at some level, on the line of the token
taken last before it, and the line stays in the table up to the last one of some states. -/
def EmittedIn (source : Bytes) (table : SymbolTable) (states : List (Session β))
    (level offset n : Nat) : Prop :=
  ∃ before s t between taken token, states = before ++ s :: t :: between ∧
    Frames.Emits level offset n s.frames t.frames ∧
    s.reader.Took (items source table) (taken ++ [token]) ∧ n = token.position.line ∧
    n = 1 + (source.take token.span.start).count (byteOf '\n') ∧
    ∀ u ∈ t :: between, Frames.lineAt? u.frames level offset = some n

/-- Each line in a table is followed back to a token: nothing is emitted before one is taken. -/
theorem emittedIn_of_lineAt? {given : Function β → Prop} {earlier : List (Session β)}
    {s : Session β} {level offset n : Nat} (hfirst : [first source table] <+: earlier ++ [s])
    (hchain : List.IsChain (Session.Appends given) (earlier ++ [s]))
    (hafter : List.IsChain (AppendsAfter (first source table : Session β).reader) (earlier ++ [s]))
    (hrecorded : ∀ u ∈ earlier ++ [s], Recorded source table given u)
    (hn : Frames.lineAt? s.frames level offset = some n) :
    EmittedIn source table (earlier ++ [s]) level offset n := by
  have hitems := ended_items source table
  have hnone : ∀ u, [u] <+: earlier ++ [s] → Frames.lineAt? u.frames level offset = none := by
    intro u hu
    have hsame := (List.prefix_of_prefix_length_le hu hfirst (Nat.le_refl 1)).eq_of_length rfl
    rw [List.singleton_inj.mp hsame, lineAt?_first]
  obtain ⟨before, t, u, between, heq, hline, hemits, hthere⟩ := Session.exists_emits hchain
    (fun u hu f hf => ((hrecorded u hu).frames f hf).size) hnone hn
  have htaken : (first source table : Session β).reader.TakenBefore t.reader :=
    (List.isChain_iff_forall_rel_of_append_cons_cons.mp hafter heq).resolve_left
      hemits.not_sameLines
  obtain ⟨taken, token, htoken⟩ := (Reader.took_start hitems).takenBefore hitems htaken
  have hprevious : t.reader.previous = token := by
    rw [htoken.previous, List.getLastD_concat]
  have hmem := htoken.mem hitems (List.mem_append_right _ List.mem_cons_self)
  rw [hprevious] at hline
  exact ⟨before, t, u, between, taken, token, heq, hemits, htoken, hline,
    hline.trans (line_of_mem_tokens hmem), hthere⟩

/-- Line tables are complete and in order, in all states that a compilation comes to. Each function
under construction has one line for each cell. The lines do not decrease, and they are lines of the
source. The functions nested in it were under construction before, so the same holds of them, and in
the end of the script. Each line in a table is the line of the token taken last before the change
that emits its cell, one more than there are ends of lines before this token. It stays in the table
from this change on. -/
theorem lines_of_history (w : Width β) (source : Bytes) (table : SymbolTable) :
    ∃ states c, History w source table states ∧ ofSourceWith w.settings source table = .ok c ∧
      (∀ g : Function β, g.DraftedIn states → g.Lined source ∧ ∀ h ∈ g.family, h.DraftedIn states) ∧
      (∀ f, c.result = .ok f → f.DraftedIn states) ∧
      ∀ earlier s later level offset n, states = earlier ++ s :: later →
        Frames.lineAt? s.frames level offset = some n →
        EmittedIn source table (earlier ++ [s]) level offset n := by
  obtain ⟨f, t, hrun⟩ : ∃ f t, (script ((first source table : Session β).reader.remaining + 1) :
      Compile w.settings (Function β)).run (first source table) = .ok (f, t) :=
    runs_ofItems (implicitNames table).1 (items source table)
  obtain ⟨later, hjourney, hafter, hscript⟩ := exists_journey_script (fun _ => False) hrun
  let states := (first source table : Session β) :: later
  have hchain : List.IsChain (Session.Appends (Function.DraftedIn states)) states :=
    hjourney.chain _ (fun _ hg => hg.elim) fun u hu f hf => ⟨u, hu, f, hf, rfl⟩
  have hrecorded := recorded_of_isChain hchain
  have hnested : ∀ g : Function β, g.DraftedIn states → ∀ h, .function h ∈ g.constants →
      h.DraftedIn states := by
    rintro _ ⟨s, hs, g, hg, rfl⟩ h hh
    exact ((hrecorded s hs).frames g hg).functions h hh
  refine ⟨states, outcome source table (f, t), history_of_journey hjourney, ?_, ?_, ?_, ?_⟩
  · rw [ofSourceWith_eq, hrun]
    rfl
  · intro g hg
    refine ⟨?_, Function.forall_family hnested g hg⟩
    obtain ⟨s, hs, draft, hdraft, rfl⟩ := hg
    exact (hrecorded s hs).lined hdraft
  · intro g hg
    unfold outcome at hg
    dsimp only at hg
    split at hg <;> cases hg
    exact hscript
  · intro earlier s after level offset n hsplit hn
    have hbegins : earlier ++ [s] <+: states := ⟨after, by rw [hsplit]; simp⟩
    have hfirst : [first source table] <+: earlier ++ [s] :=
      List.prefix_of_prefix_length_le (List.prefix_append _ later) hbegins (by simp)
    exact emittedIn_of_lineAt? hfirst ( List.IsChain.prefix hchain hbegins)
      ( List.IsChain.prefix hafter hbegins) (fun u hu => hrecorded u (hbegins.subset hu)) hn

/-- Two statements on two lines: what returns from the script is on the last one. -/
example : ((ofSource (ascii ['p', 'r', 'i', 'n', 't', ' ', '1', ';', '\n',
      'p', 'r', 'i', 'n', 't', ' ', '2', ';']) .empty).toOption.bind
        fun c => c.result.toOption.map Function.lines) = some [1, 1, 1, 2, 2, 2, 2, 2] := by
  decide +kernel

end Compilation

end LoxCompiler
