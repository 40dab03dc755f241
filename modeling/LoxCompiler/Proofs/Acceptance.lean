import LoxCompiler.Proofs.Simulation.Script

/-! # Accepted sources

A source is accepted exactly if it has no lexical error, its tokens spell a program, the static
rules allow the program, and its plan is within the limits. Then it compiles to what the plan
assembles to.
-/

namespace LoxCompiler

open Compile

namespace Reader

/-- A reader before the first token of some items. -/
def origin (items : List (Scanned Symbol)) : Reader :=
  { upcoming := items, previous := .endAt .start 0, current := .endAt .start 0
    hadError := false, panicMode := false, diagnostics := [] }

theorem start_eq (items : List (Scanned Symbol)) : start items = (origin items).advance := rfl

theorem quiet_origin (items : List (Scanned Symbol)) : (origin items).Quiet := ⟨rfl, rfl⟩

theorem honest_start (items : List (Scanned Symbol)) : (start items).Honest :=
  stable_honest.advance _ (quiet_origin items).honest

end Reader

namespace Compilation

variable {β : Type} {w : Width β} {source : Bytes} {table : SymbolTable}

/-- A source compiles to a function, without a report. -/
def Accepts (w : Width β) (source : Bytes) (table : SymbolTable) (f : Function β) : Prop :=
  ∃ c, ofSourceWith w.settings source table = .ok c ∧ c.result = .ok f

/-- The items of a source, with symbols for its names. -/
def items (source : Bytes) (table : SymbolTable) : List (Scanned Symbol) :=
  (Scanned.internAll (Scanned.ofSource source) (implicitNames table).2).1

/-- A source has no lexical error, and its tokens are of the given kinds. -/
def Scans (source : Bytes) (table : SymbolTable) (ts : List Kind) : Prop :=
  (items source table).map (Except.map Token.kind) = (ts ++ [TokenKind.endOfInput]).map .ok

/-- A source without a lexical error spells a program that the static rules allow. -/
structure Spells (source : Bytes) (table : SymbolTable) (ds : List Declaration) : Prop where
  spelled : ∃ ts, Scans source table ts ∧ Declaration.SpelledEach ds ts
  allowed : Declaration.AllowedEach (.script (implicitNames table).1) ds

/-- The state before the first token of a source. -/
def first (source : Bytes) (table : SymbolTable) : Session β :=
  start (implicitNames table).1 (items source table)

/-- What comes of a source when its script is compiled. -/
def outcome (source : Bytes) (table : SymbolTable) (answer : Function β × Session β) :
    Compilation β where
  symbols := (Scanned.internAll (Scanned.ofSource source) (implicitNames table).2).2
  result :=
    if answer.2.reader.hadError then .error answer.2.reader.diagnostics.reverse else .ok answer.1
  events := answer.2.events.reverse

theorem ofSourceWith_eq (c : Settings β) (source : Bytes) (table : SymbolTable) :
    ofSourceWith c source table =
      ((script ((first source table : Session β).reader.remaining + 1) :
        Compile c (Function β)).run (first source table)).bind fun answer =>
        .ok (outcome source table answer) := rfl

/-- All names of a source have their symbols in the end, whether it is accepted or not. -/
theorem symbols_ofSourceWith {settings : Settings β} {c : Compilation β}
    (hc : ofSourceWith settings source table = .ok c) :
    c.symbols = (Scanned.internAll (Scanned.ofSource source) (implicitNames table).2).2 := by
  rw [ofSourceWith_eq] at hc
  cases hscript : (script ((first source table : Session β).reader.remaining + 1) :
      Compile settings (Function β)).run (first source table) with
  | error fault =>
      rw [hscript] at hc
      cases hc
  | ok answer =>
      rw [hscript] at hc
      cases hc
      rfl

/-- A source is accepted if the script is compiled cleanly. -/
theorem accepts_iff_cleanly {f : Function β} : Accepts w source table f ↔
    ∃ t, Cleanly (script ((first source table : Session β).reader.remaining + 1) :
      Compile w.settings (Function β)) (first source table) f t := by
  unfold Accepts
  rw [ofSourceWith_eq]
  constructor
  · rintro ⟨c, hc, hf⟩
    cases hscript : (script ((first source table : Session β).reader.remaining + 1) :
        Compile w.settings (Function β)).run (first source table) with
    | error fault =>
        rw [hscript] at hc
        cases hc
    | ok answer =>
        obtain ⟨g, t⟩ := answer
        rw [hscript] at hc
        cases hc
        unfold outcome at hf
        dsimp only at hf
        split at hf
        · cases hf
        · rename_i herror
          cases hf
          have hstart : (first source table : Session β).reader.hadError ≠ true := fun h =>
            herror (Orderly.keeps Reader.stable_hadError hscript h)
          have hquiet := Reader.Honest.quiet (Reader.honest_start _) hstart
          exact ⟨t, hquiet, hscript,
            Reader.Honest.quiet (Orderly.keeps Reader.stable_honest hscript hquiet.honest) herror⟩
  · rintro ⟨t, h⟩
    rw [h.run]
    refine ⟨_, rfl, ?_⟩
    unfold outcome
    dsimp only
    rw [h.after.noError]
    rfl

/-- The tokens of a source are what its first reader takes up to the end of the input. -/
theorem scans_iff {ts : List Kind} (hts : .endOfInput ∉ ts) : Scans source table ts ↔
    ∃ r, (first source table : Session β).reader.Takes (ts ++ [.endOfInput]) r := by
  obtain ⟨before, last, hitems, hlast, hproper⟩ :=
    Scanned.internAll_ofSource source table
  have htakes := Reader.takes_advance_iff (Reader.quiet_origin (items source table)) hitems hlast
    (fun token h => (hproper token h).1) hts
  rw [← Reader.start_eq] at htakes
  unfold Scans
  rw [items, hitems]
  simp only [List.map_append, List.map_cons, List.map_nil, Except.map, hlast]
  rw [List.append_left_inj]
  exact htakes.symm

/-- No token of a source is an identifier with a name that the language keeps for itself. -/
theorem Scans.mem {ts : List Kind} (h : Scans source table ts) {kind : Kind} (hkind : kind ∈ ts) :
    kind ≠ .identifier (implicitNames table).1.this ∧
      kind ≠ .identifier (implicitNames table).1.super ∧ kind ≠ .identifier .anonymous := by
  obtain ⟨before, last, hitems, hlast, hproper⟩ :=
    Scanned.internAll_ofSource source table
  unfold Scans at h
  rw [items, hitems] at h
  simp only [List.map_append, List.map_cons, List.map_nil, Except.map, hlast] at h
  rw [List.append_left_inj] at h
  have hmem : .ok kind ∈ before.map (Except.map Token.kind) := h ▸ List.mem_map_of_mem hkind
  obtain ⟨item, hitem, heq⟩ := List.mem_map.mp hmem
  cases item with
  | error e => cases heq
  | ok token =>
      cases heq
      exact (hproper token hitem).2

/-- A source of tokens has no lexical error. -/
theorem Scans.no_error {ts : List Kind} (h : Scans source table ts) (e : LexicalError) :
    .error e ∉ Scanned.ofSource source := by
  intro he
  have hnames := Scanned.mapName_internAll (Scanned.ofSource source) (t := (implicitNames table).2)
    (SymbolTable.Extends.refl _)
  rw [← hnames] at he
  obtain ⟨item, hitem, heq⟩ := List.mem_map.mp he
  have hkind : item.map Token.kind ∈ (ts ++ [TokenKind.endOfInput]).map Except.ok := by
    rw [← h]
    exact List.mem_map_of_mem hitem
  obtain ⟨kind, -, hok⟩ := List.mem_map.mp hkind
  cases item with
  | error e => cases hok
  | ok token => cases heq

/-- No token of a source is an identifier with a name of the language. -/
theorem Scans.spared {ts : List Kind} (h : Scans source table ts) :
    (implicitNames table).1.Spared ts :=
  fun _ hkind => ⟨(h.mem hkind).1, (h.mem hkind).2.1⟩

/-- What an accepted source is, and what it compiles to. -/
theorem Accepts.program {f : Function β} (h : Accepts w source table f) :
    ∃ ds, Spells source table ds ∧
      (Declaration.plan (implicitNames table).1 ds).Fits w.limits ∧
      f.eraseLines = (Declaration.plan (implicitNames table).1 ds).assemble w 0 := by
  obtain ⟨t, hscript⟩ := accepts_iff_cleanly.mp h
  obtain ⟨ds, ts, hds, hprogram⟩ := script_reads hscript
  have htakes := (Declaration.reads_compileProgram hds) hprogram
  have hscans : Scans source table ts := (scans_iff hds.no_end).mpr ⟨_, htakes⟩
  obtain ⟨hallowed, hfits, hf⟩ :=
    Declaration.program_sound hds hscans.spared (Drafts.describes_script _) hprogram
  exact ⟨ds, ⟨⟨ts, hscans, hds⟩, hallowed⟩, hfits, hf⟩

end Compilation

end LoxCompiler
