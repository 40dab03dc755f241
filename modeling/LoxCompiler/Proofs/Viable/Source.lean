import LoxCompiler.Proofs.Reports.Source
import LoxCompiler.Proofs.Viable.Complete
import LoxCompiler.Proofs.Viable.Declaration
import LoxCompiler.Proofs.Viable.Language

/-! # The first report about the tokens

If the first thing that is wrong with a source is its tokens, then it is reported where they go
wrong: the tokens before the reported one start a program, and with it they do not.
-/

namespace LoxCompiler

/-! ## Starts of programs -/

namespace Leads

variable {before after : List Kind} {gs : List Goal} {k : Kind}

end Leads

open Compile

namespace Compilation

variable {source : Bytes} {table : SymbolTable}

/-- A source without lexical errors is a list of tokens, of which the last one is the end of the
input, and no other one is. -/
theorem exists_tokens (table : SymbolTable) (hscans : ∀ e, .error e ∉ Scanned.ofSource source) :
    ∃ (body : List (Token Symbol)) (last : Token Symbol),
      items source table = (body ++ [last]).map .ok ∧ last.kind = .endOfInput ∧
        ∀ token ∈ body, token.kind ≠ .endOfInput := by
  have hall (l : List (Scanned Symbol)) (h : ∀ e, .error e ∉ l) :
      ∃ tokens : List (Token Symbol), l = tokens.map .ok := by
    induction l with
    | nil => exact ⟨[], rfl⟩
    | cons item l ih =>
        obtain ⟨tokens, rfl⟩ := ih fun e he => h e (List.mem_cons_of_mem _ he)
        cases item with
        | error e => exact absurd List.mem_cons_self (h e)
        | ok token => exact ⟨token :: tokens, rfl⟩
  obtain ⟨before, last, hitems, hlast, hproper⟩ := Scanned.internAll_ofSource source table
  obtain ⟨f, hnames⟩ := exists_mapName_items source table
  obtain ⟨body, rfl⟩ := hall before fun e he => by
    apply hscans e
    rw [← hnames, items, hitems]
    exact List.mem_map_of_mem (f := Scanned.mapName f) (List.mem_append_left _ he)
  refine ⟨body, last, by simpa [items] using hitems, hlast, fun token htoken => ?_⟩
  exact (hproper token (List.mem_map_of_mem htoken)).1

/-- The compiler starts before the first token of a source, with nothing read. -/
theorem faces_start {body : List (Token Symbol)} {last : Token Symbol}
    (hitems : items source table = (body ++ [last]).map .ok) (hlast : last.kind = .endOfInput) :
    (Reader.start (items source table)).OnTrack ∧
      (Reader.start (items source table)).cleared.Faces (body ++ [last]) [.script] := by
  obtain ⟨first, rest, hfirst⟩ := List.exists_cons_of_ne_nil (List.append_ne_nil_of_right_ne_nil
    body (List.cons_ne_nil last []))
  have hstart : Reader.start (items source table) = { Reader.origin (items source table) with
      current := first, upcoming := rest.map .ok } := by
    rw [Reader.start_eq, hitems, hfirst]
    rfl
  rw [hstart]
  refine ⟨⟨by simp, nofun, nofun⟩, ?_, [], rest, hfirst, rfl, ?_⟩
  · intro before token htokens
    obtain ⟨-, htoken⟩ := List.append_inj' htokens rfl
    rwa [← List.singleton_injective htoken]
  · rw [hfirst]
    exact .refl

/-- What is reported of a source without lexical errors. Either no report is about the tokens, or a
token offends, and the first report is at it if it is about the tokens. Or else the first report is
not, and tokens are skipped after one of the reports. -/
theorem reports_follow {body : List (Token Symbol)} {last : Token Symbol} {c : Compilation UInt8}
    {d : Diagnostic} {later : List Diagnostic}
    (hitems : items source table = (body ++ [last]).map .ok) (hlast : last.kind = .endOfInput)
    (hc : ofSource source table = .ok c) (hresult : c.result = .error (d :: later)) :
    (∀ d' ∈ d :: later, d'.problem.isSyntactic = false) ∨
    (∃ token, Offends (body ++ [last]) token ∧
      (d.problem.isSyntactic = true → d = token.diagnostic d.problem)) ∨
    (d.problem.isSyntactic = false ∧
      ∃ line skipped, .synchronized line skipped ∈ c.events ∧ 0 < skipped) := by
  obtain ⟨htrack, hfaces⟩ := faces_start hitems hlast
  obtain ⟨f, t, hrun, hc', htold⟩ := exists_outcome source table
  cases hc'.symm.trans hc
  obtain ⟨hreports, -⟩ := ((result_outcome source table (f, t) htold).2 _).mp hresult
  have hfirst (d' : Diagnostic) (hd' : t.reader.diagnostics.getLast? = some d') : d' = d := by
    rw [List.getLast?_eq_head?_reverse, ← hreports] at hd'
    exact (Option.some.inj hd').symm
  rcases follows_script (w := .byte) _ hrun htrack hfaces with
    ⟨htrack', -⟩ | ⟨token, d', hoffends, hd', hat⟩ | ⟨⟨line, skipped, hmem, hskipped⟩, d', hd', hstatic⟩
  · refine .inl fun d' hd' => htrack'.faultless d' ?_
    rw [hreports] at hd'
    exact List.mem_reverse.mp hd'
  · cases hfirst d' hd'
    exact .inr (.inl ⟨token, hoffends, hat⟩)
  · cases hfirst d' hd'
    exact .inr (.inr ⟨hstatic, line, skipped, List.mem_reverse.mpr hmem, hskipped⟩)

end Compilation

end LoxCompiler
