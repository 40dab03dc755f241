import LoxCompiler.Proofs.Acceptance
import LoxCompiler.Proofs.Reports.Constructs
import LoxCompiler.Proofs.Reports.Order

/-! # What is reported of a source

A source is compiled to a function if and only if nothing is raised on the way. Otherwise the
reports are the first problem that is raised, and the first one after each resumption. They are in
the order of the source, and show its tokens. No lexical error goes unnoticed.
-/

set_option synthInstance.maxSize 4096

namespace LoxCompiler

/-! ## The end of the items -/

namespace Reader

/-- Among some items, the end of the input comes last. -/
def Closing (items : List (Scanned Symbol)) : Prop :=
  ∀ token rest, .ok token :: rest <:+ items → token.kind = .endOfInput → rest = []

/-- A reader has come to some place of some items, and at their end nothing is left to read. -/
structure Within (items : List (Scanned Symbol)) (r : Reader) : Prop where
  suffix : r.upcoming <:+ items
  ended : r.current.kind = .endOfInput → r.upcoming = []

variable {items : List (Scanned Symbol)}

theorem within_advanceOver (hitems : Closing items) (r : Reader) (rest : List (Scanned Symbol))
    (hrest : rest <:+ items) : (r.advanceOver rest).Within items := by
  fun_induction advanceOver r rest with
  | case1 => exact ⟨hrest, fun _ => rfl⟩
  | case2 r token rest => exact ⟨(List.suffix_cons _ rest).trans hrest, hitems token rest hrest⟩
  | case3 r e rest ih => exact ih ((List.suffix_cons _ rest).trans hrest)

theorem stable_within (hitems : Closing items) : Stable (Within items) where
  advance _ h := within_advanceOver hitems _ _ h.suffix
  report r d h := by
    unfold report
    split <;> exact ⟨h.suffix, h.ended⟩
  resume _ h := ⟨h.suffix, h.ended⟩

theorem stable_upcoming : Stable fun r => r.upcoming = [] where
  advance r h := by
    unfold advance
    rw [h]
    rfl
  report r d h := by
    unfold report
    split <;> exact h
  resume _ h := h

/-- A reader knows of an error if and only if it has reported one. -/
def Told (r : Reader) : Prop := r.hadError = true ↔ r.diagnostics ≠ []

theorem stable_told : Stable Told := by
  refine .of_report (fun r d h => ?_) (fun _ h => h) fun _ _ _ _ h => h
  unfold report
  split
  · exact h
  · simp [Told]

end Reader

open Compile

namespace Compile

variable {β : Type} {w : Width β}

/-- A loop ends where its condition fails. -/
theorem exists_of_repeatWhile {condition : Compile w.settings Bool}
    {step : Compile w.settings Unit} {budget : Nat}
    [Orderly condition] [Orderly step] {P : Reader → Prop} (hP : Reader.Stable P)
    {s t : Session β} (h : (repeatWhile condition step budget).run s = .ok ((), t))
    (hs : P s.reader) : ∃ u, condition.run u = .ok (false, t) ∧ P u.reader := by
  induction budget generalizing s with
  | zero => cases h
  | succ budget ih =>
      obtain ⟨again, u, hcondition, hrest⟩ := ok_of_run_bind h
      cases again with
      | false =>
          cases hrest
          exact ⟨s, hcondition, hs⟩
      | true =>
          obtain ⟨_, v, hstep, hloop⟩ := ok_of_run_bind hrest
          exact ih hloop (Orderly.keeps hP hstep (Orderly.keeps hP hcondition hs))

/-- A script ends with nothing left to read. -/
theorem upcoming_of_script {budget : Nat} {items : List (Scanned Symbol)}
    (hitems : Reader.Closing items) {s t : Session β} {f : Function β}
    (h : (script budget : Compile w.settings (Function β)).run s = .ok (f, t))
    (hs : s.reader.Within items) : t.reader.upcoming = [] := by
  obtain ⟨_, u, hloop, hend⟩ := ok_of_run_bind h
  obtain ⟨v, hcondition, hv⟩ := exists_of_repeatWhile (Reader.stable_within hitems) hloop hs
  obtain ⟨found, u', haccept, hanswer⟩ := ok_of_run_bind hcondition
  have hu : u.reader.upcoming = [] := by
    by_cases hkind : v.reader.current.kind = .endOfInput
    · rw [run_accept_of_eq hkind] at haccept
      cases haccept
      cases hanswer
      exact Reader.stable_upcoming.advance _ (hv.ended hkind)
    · rw [run_accept_of_ne hkind] at haccept
      cases haccept
      cases hanswer
  exact Orderly.keeps Reader.stable_upcoming hend hu

end Compile

/-! ## Sources -/

namespace Compilation

variable (source : Bytes) (table : SymbolTable)

/-- The signals of a compilation: the lexical errors before the first token, and what the script
raises. -/
def Raises (signals : List Signal) : Prop :=
  ∃ f t later,
    signals = (Reader.origin (items source table)).passed (.start (items source table)) ++ later ∧
      Compile.Raises (script ((first source table : Session UInt8).reader.remaining + 1) :
        Compile .byte (Function UInt8)) (first source table) later f t

theorem exists_mapName_items :
    ∃ f, (items source table).map (Scanned.mapName f) = Scanned.ofSource source :=
  ⟨_, Scanned.mapName_internAll _ (SymbolTable.Extends.refl _)⟩

theorem closing_items : Reader.Closing (items source table) := by
  obtain ⟨before, last, hitems, -, hproper⟩ := Scanned.internAll_ofSource source table
  rintro token rest ⟨taken, htaken⟩ hkind
  rw [items, hitems] at htaken
  rcases rest.eq_nil_or_concat with rfl | ⟨rest, item, rfl⟩
  · rfl
  · -- Then the token is one of those before the last item.
    have hbefore : taken ++ .ok token :: rest = before := by
      have hsplit : taken ++ .ok token :: rest ++ [item] = before ++ [.ok last] := by
        simpa using htaken
      exact (List.append_inj' hsplit rfl).1
    exact absurd hkind (hproper token (by simp [← hbefore])).1

theorem ordered_items : Scanned.Ordered (items source table) := by
  obtain ⟨before, last, hitems, -⟩ := Scanned.internAll_ofSource source table
  obtain ⟨f, hnames⟩ := exists_mapName_items source table
  constructor
  · have hsorted := (Tokenized.ofSource source).pairwise_line
    rw [← hnames, List.pairwise_map] at hsorted
    exact hsorted.imp fun {item next} h => by cases item <;> cases next <;> exact h
  · intro e
    rw [items, hitems]
    simp

/-- A token of a source stands in it, if it is not the end of the input. -/
theorem exists_standing {token : Token Symbol} (h : .ok token ∈ items source table)
    (hkind : token.kind ≠ .endOfInput) :
    ∃ other, .ok other ∈ Scanned.ofSource source ∧ other.StandsIn source ∧
      other.lexeme = token.lexeme ∧ other.position = token.position := by
  obtain ⟨f, hnames⟩ := exists_mapName_items source table
  obtain ⟨standing, hsource, hstanding⟩ := (Tokenized.ofSource source).exists_eq_append
  have hmem : .ok (token.mapName f) ∈ Scanned.ofSource source := by
    rw [← hnames]
    exact List.mem_map_of_mem (f := Scanned.mapName f) h
  refine ⟨token.mapName f, hmem, ?_, rfl, rfl⟩
  rw [hsource, List.mem_append] at hmem
  rcases hmem with hmem | hmem
  · exact (hstanding _ hmem).2
  · have hend := congrArg Token.kind (Except.ok.inj (List.mem_singleton.mp hmem))
    exact absurd ((TokenKind.mapName_eq_endOfInput f).mp hend) hkind

theorem settled_start : (Reader.start (items source table)).Settled (items source table) := by
  have hfirst : ∀ item ∈ items source table, 1 ≤ item.line := by
    obtain ⟨f, hnames⟩ := exists_mapName_items source table
    have hle := (Tokenized.ofSource source).line_le
    rw [← hnames, List.forall_mem_map] at hle
    intro item hitem
    have := hle item hitem
    cases item <;> exact this
  have horigin : (Reader.origin (items source table)).Ordered (items source table) :=
    ⟨List.suffix_refl _, fun h => absurd rfl h, fun h => absurd rfl h, Nat.le_refl _, hfirst,
      .nil, nofun, nofun⟩
  exact (Reader.paced_inOrder (ordered_items source table)).advance _ horigin

/-- The reports of a source are in order, and show tokens of it. -/
def InOrder (diagnostics : List Diagnostic) : Prop :=
  diagnostics.Pairwise (fun d next => d.line ≤ next.line) ∧
    ∀ d ∈ diagnostics, ∀ text, d.place = .lexeme text →
      ∃ token, .ok token ∈ Scanned.ofSource source ∧ token.StandsIn source ∧
        token.lexeme = text ∧ token.position.line = d.line

theorem inOrder_of_ordered {r : Reader} (h : r.Ordered (items source table)) :
    InOrder source r.diagnostics.reverse := by
  refine ⟨List.pairwise_reverse.mpr h.sorted, fun d hd text htext => ?_⟩
  obtain ⟨token, hmem, hkind, hlexeme, hline⟩ := h.shows d (List.mem_reverse.mp hd) text htext
  obtain ⟨other, hother, hstands, hsame, hposition⟩ := exists_standing source table hmem hkind
  exact ⟨other, hother, hstands, hsame.trans hlexeme, by rw [hposition, hline]⟩

/-- What the signals of a source are. -/
theorem Raises.spec {source : Bytes} {table : SymbolTable} {signals : List Signal}
    (h : Raises source table signals) : ∃ f t,
      (script ((first source table : Session UInt8).reader.remaining + 1) :
        Compile .byte (Function UInt8)).run (first source table) = .ok (f, t) ∧
      t.reader.diagnostics = (Signal.reports false signals).reverse ∧
      ∀ e, .error e ∈ Scanned.ofSource source → .raised e.diagnostic ∈ signals := by
  obtain ⟨f, t, later, rfl, hraises⟩ := h
  have hstart := Reader.hears_advance (Reader.origin (items source table))
  have hhears := hstart.trans hraises.hears
  refine ⟨f, t, hraises.run, ?_, fun e he => ?_⟩
  · rw [hhears.diagnostics]
    exact List.append_nil _
  · obtain ⟨taken, htaken, herrors⟩ := hhears.upcoming
    have hwithin : (Reader.start (items source table)).Within (items source table) :=
      Reader.within_advanceOver (closing_items source table) _ _ (List.suffix_refl _)
    have hend := upcoming_of_script (w := .byte) (closing_items source table) hraises.run hwithin
    rw [hend, List.append_nil] at htaken
    obtain ⟨names, hnames⟩ := exists_mapName_items source table
    rw [← hnames] at he
    obtain ⟨item, hitem, heq⟩ := List.mem_map.mp he
    cases item with
    | ok token => cases heq
    | error e' =>
        cases heq
        refine herrors e (List.mem_filterMap.mpr ⟨.error e, ?_, rfl⟩)
        rw [← htaken]
        exact hitem

/-- A run leads to a function exactly if nothing was reported, and else to the reports. -/
theorem result_outcome {β : Type} (answer : Function β × Session β) (h : answer.2.reader.Told) :
    ((∃ f, (outcome source table answer).result = .ok f) ↔ answer.2.reader.diagnostics = []) ∧
      ∀ diagnostics, (outcome source table answer).result = .error diagnostics ↔
        diagnostics = answer.2.reader.diagnostics.reverse ∧ diagnostics ≠ [] := by
  unfold Reader.Told at h
  unfold outcome
  cases herror : answer.2.reader.hadError with
  | false =>
      have hnone : answer.2.reader.diagnostics = [] := by simpa [herror] using h
      simp [hnone]
  | true =>
      have hsome : answer.2.reader.diagnostics ≠ [] := h.mp herror
      refine ⟨by simpa using hsome, fun diagnostics => ?_⟩
      simp only [if_true, Except.error.injEq]
      constructor
      · rintro rfl
        exact ⟨rfl, by simpa using hsome⟩
      · exact fun hreports => hreports.1.symm

/-- What is said about a source is the outcome of a run of the script. -/
theorem exists_outcome (source : Bytes) (table : SymbolTable) :
    ∃ f t, (script ((first source table : Session UInt8).reader.remaining + 1) :
        Compile .byte (Function UInt8)).run (first source table) = .ok (f, t) ∧
      ofSource source table = .ok (outcome source table (f, t)) ∧ t.reader.Told := by
  obtain ⟨f, t, hrun⟩ := runs_ofItems (w := .byte) (implicitNames table).1 (items source table)
  have hrun : (script ((first source table : Session UInt8).reader.remaining + 1) :
      Compile .byte (Function UInt8)).run (first source table) = .ok (f, t) := hrun
  refine ⟨f, t, hrun, ?_, Orderly.keeps Reader.stable_told hrun
    (Reader.stable_told.advance _ (by simp [Reader.Told]))⟩
  rw [ofSource, ofSourceWith_eq, hrun]
  rfl

/-- Errors come in the order of the source, and none is lost. Every source compiles to a function or
to reports. It compiles to a function exactly if nothing is raised on the way, whether it would be
reported or not. Otherwise there is a report: the reports are those problems that are raised first
after the start or after a resumption, so there is a resumption between any two of them. Every
lexical error is raised, so none is in an accepted source. The lines of the reports do not decrease,
and where they show a lexeme, it is that of a token on their line. -/
theorem reports_family (source : Bytes) (table : SymbolTable) :
    ∃ c, ofSource source table = .ok c ∧
      (∃ signals, Raises source table signals) ∧
      (∀ signals, Raises source table signals →
        ((∃ f, c.result = .ok f) ↔ ∀ d, .raised d ∉ signals) ∧
        (∀ diagnostics, c.result = .error diagnostics →
          diagnostics = Signal.reports false signals ∧ diagnostics ≠ []) ∧
        (∀ before between after, signals = before ++ between ++ after →
          (Signal.reports false before).length + 2 ≤
            (Signal.reports false (before ++ between)).length → .resumed ∈ between) ∧
        ∀ e, .error e ∈ Scanned.ofSource source → .raised e.diagnostic ∈ signals) ∧
      (∀ diagnostics, c.result = .error diagnostics → InOrder source diagnostics) ∧
      ((∃ e, .error e ∈ Scanned.ofSource source) → ∃ diagnostics, c.result = .error diagnostics) := by
  obtain ⟨f, t, hrun, hc, htold⟩ := exists_outcome source table
  have hpaces := paces_script (c := (Settings.byte : Settings UInt8))
    ((first source table : Session UInt8).reader.remaining + 1)
  obtain ⟨hfunction, hreports⟩ := result_outcome source table (f, t) htold
  obtain ⟨later, hlater⟩ := hpaces.raises hrun
  have hexists : Raises source table _ := ⟨f, t, later, rfl, hlater⟩
  have hverdict (signals : List Signal) (h : Raises source table signals) :
      t.reader.diagnostics = (Signal.reports false signals).reverse ∧
        ∀ e, .error e ∈ Scanned.ofSource source → .raised e.diagnostic ∈ signals := by
    obtain ⟨f', t', hrun', hspec⟩ := h.spec
    cases hrun.symm.trans hrun'
    exact hspec
  refine ⟨_, hc, ⟨_, hexists⟩, fun signals h => ?_, fun diagnostics herror => ?_, ?_⟩
  · obtain ⟨hdiagnostics, herrors⟩ := hverdict signals h
    refine ⟨?_, fun diagnostics herror => ?_, ?_, herrors⟩
    · rw [hfunction, hdiagnostics, List.reverse_eq_nil_iff, Signal.reports_eq_nil_iff]
    · rw [hreports, hdiagnostics, List.reverse_reverse] at herror
      exact herror
    · intro before between after _ hlength
      by_contra hnone
      have hle := Signal.length_reports_le (Signal.silence false before) hnone
      rw [Signal.reports_append, List.length_append] at hlength
      omega
  · have hordered : t.reader.Ordered (items source table) :=
      hpaces.keeps (Reader.paced_inOrder (ordered_items source table)) hrun
        (settled_start source table).toOrdered
    rw [((hreports diagnostics).mp herror).1]
    exact inOrder_of_ordered source table hordered
  · rintro ⟨e, he⟩
    obtain ⟨hdiagnostics, herrors⟩ := hverdict _ hexists
    refine ⟨_, (hreports _).mpr ⟨rfl, fun hnone => ?_⟩⟩
    rw [hdiagnostics, List.reverse_reverse, Signal.reports_eq_nil_iff] at hnone
    exact hnone _ (herrors e he)

/-- In `1 2 @;` the sign that starts no token is skipped after the report at the second number. -/
theorem rejected_of_skipped_error :
    ∃ c diagnostics, ofSource (ascii ['1', ' ', '2', ' ', '@', ';']) .empty = .ok c ∧
      c.result = .error diagnostics ∧
      InOrder (ascii ['1', ' ', '2', ' ', '@', ';']) diagnostics := by
  obtain ⟨c, hc, -, -, hordered, hlexical⟩ :=
    reports_family (ascii ['1', ' ', '2', ' ', '@', ';']) .empty
  have hmalformed : .error ⟨.unexpected (byteOf '@'), 1, 4⟩ ∈
      Scanned.ofSource (ascii ['1', ' ', '2', ' ', '@', ';']) :=
    List.mem_of_getElem? (i := 2) rfl
  obtain ⟨diagnostics, herror⟩ := hlexical ⟨_, hmalformed⟩
  exact ⟨c, diagnostics, hc, herror, hordered diagnostics herror⟩

end Compilation

end LoxCompiler
