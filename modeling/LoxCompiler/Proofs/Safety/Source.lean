import LoxCompiler.Proofs.Safety.Statement

/-! # Every source is compiled to its end

No fault ever occurs: whatever the source is, compiling it gives a function or diagnostics.
-/

set_option synthInstance.maxSize 4096

namespace LoxCompiler

open Compile

variable {β : Type} {w : Width β}

namespace Compile

variable {n : Nat}

/-- The declarations of a script end, since each of them takes a token. -/
theorem safe_declarations {budget : Nat} (hn : n ≤ budget) :
    Safe n (repeatWhile (return !(← accept .endOfInput)) (declaration budget) budget :
      Compile w.settings Unit) := by
  have := (safe_declaration (w := w) (n := budget)).mono hn
  refine safe_repeatWhile ?_ hn
  intro s t u hcondition hstep
  obtain ⟨found, a, haccept, hanswer⟩ := ok_of_run_bind hcondition
  cases hfound : found with
  | true =>
      rw [hfound] at hanswer
      cases hanswer
  | false =>
      rw [hfound] at hanswer haccept
      cases hanswer
      by_cases hend : s.reader.current.kind = .endOfInput
      · rw [run_accept_of_eq hend] at haccept
        cases haccept
      · rw [run_accept_of_ne hend] at haccept
        cases haccept
        exact Progress.takes (P := IsToken) hstep hend

/-- A script is compiled to its end. -/
theorem runs_script {s : Session β} {σ : Shape β} (hs : s.Shaped σ) :
    ∃ f t, (script (s.reader.remaining + 1) : Compile w.settings (Function β)).run s =
      .ok (f, t) := by
  have hdeclarations := safe_declarations (w := w) (Nat.le_refl (s.reader.remaining + 1))
  obtain ⟨_, t, hrun, ht⟩ := hdeclarations.runs hs (Nat.lt_succ_self _)
  obtain ⟨_, u, hreturn, hu⟩ := Safe.runs (m := (emitReturn : Compile w.settings Unit)) ht
    (Nat.lt_succ_self _)
  obtain ⟨f, frames, hf⟩ := hu.frames
  obtain ⟨events, htake⟩ := run_takeFrame (w := w) hf.eq
  refine ⟨f.finish, { u with frames, events }, ?_⟩
  unfold script
  rw [run_bind_of_ok hrun, endFrame_eq, bind_assoc, run_bind_of_ok hreturn, run_bind_of_ok htake]
  rfl

end Compile

namespace Compilation

theorem shaped_start (names : ImplicitNames) (items : List (Scanned Symbol)) :
    (start names items : Session β).Shaped ⟨[], 0, [], 0, []⟩ :=
  ⟨rfl, _, _, rfl, rfl, rfl, Nat.zero_le _, .nil⟩

/-- Whatever the items are, they are compiled to the end. -/
theorem runs_ofItems (names : ImplicitNames) (items : List (Scanned Symbol)) :
    ∃ f t, ofItems w.settings names items = .ok (f, t) :=
  runs_script (shaped_start names items)

theorem runs_ofSourceWith (source : Bytes) (table : SymbolTable) :
    ∃ c, ofSourceWith w.settings source table = .ok c := by
  obtain ⟨f, t, hrun⟩ := runs_ofItems (w := w) (implicitNames table).1
    (Scanned.internAll (Scanned.ofSource source) (implicitNames table).2).1
  unfold ofSourceWith
  dsimp only
  rw [hrun]
  exact ⟨_, rfl⟩

end Compilation

end LoxCompiler
