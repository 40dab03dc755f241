import LoxCompiler.Proofs.Totality
import Mathlib.Logic.Function.Iterate

/-! # Finding the next boundary

After a report, tokens are skipped up to the first boundary. Reports are allowed again before the
first token is skipped, and a lexical error among the skipped items is reported like any other
problem. So reports are suppressed at the boundary if and only if there was such an error, and then
the first one of them was reported.
-/

namespace LoxCompiler

/-- The lexical errors among some items. -/
def Scanned.errors {ν : Type} (items : List (Scanned ν)) : List LexicalError :=
  items.filterMap fun
    | .ok _ => none
    | .error e => some e

@[simp] theorem Scanned.errors_append {ν : Type} (items more : List (Scanned ν)) :
    errors (items ++ more) = errors items ++ errors more :=
  List.filterMap_append

/-- The report of a lexical error. -/
def LexicalError.diagnostic (e : LexicalError) : Diagnostic :=
  ⟨.lexical e.cause, e.position.line, .noToken⟩

namespace Reader

/-- A reader takes some items, and gets into another state by that. Of the lexical errors among
them, the first one is reported if reports are allowed. -/
structure Skips (r : Reader) (items : List (Scanned Symbol)) (t : Reader) : Prop where
  upcoming : r.upcoming = items ++ t.upcoming
  panicMode : t.panicMode = (r.panicMode || !(Scanned.errors items).isEmpty)
  diagnostics : t.diagnostics =
    (if r.panicMode then [] else
      ((Scanned.errors items).head?.map LexicalError.diagnostic).toList) ++ r.diagnostics

namespace Skips

variable {r t u : Reader} {items more : List (Scanned Symbol)}

theorem refl (r : Reader) : r.Skips [] r where
  upcoming := rfl
  panicMode := (Bool.or_false _).symm
  diagnostics := by simp [Scanned.errors]

theorem trans (h : r.Skips items t) (h' : t.Skips more u) : r.Skips (items ++ more) u where
  upcoming := by rw [h.upcoming, h'.upcoming, List.append_assoc]
  panicMode := by
    rw [h'.panicMode, h.panicMode, Scanned.errors_append]
    cases r.panicMode <;> cases Scanned.errors items <;> simp
  diagnostics := by
    rw [h'.diagnostics, h.diagnostics, h.panicMode, Scanned.errors_append]
    -- The errors of the second part count only if there are none in the first one.
    cases r.panicMode <;> cases Scanned.errors items <;> simp

end Skips

/-- Up to the next token, the lexical errors before it are taken, and the token itself. -/
theorem skips_advanceOver (r : Reader) (items : List (Scanned Symbol)) :
    ∃ skipped, { r with upcoming := items }.Skips skipped (r.advanceOver items) := by
  induction items generalizing r with
  | nil => exact ⟨[], rfl, (Bool.or_false _).symm, by simp [advanceOver, Scanned.errors]⟩
  | cons item items ih =>
      cases item with
      | ok token =>
          exact ⟨[.ok token], rfl, by simp [advanceOver, Scanned.errors],
            by simp [advanceOver, Scanned.errors]⟩
      | error e =>
          obtain ⟨skipped, hupcoming, hpanic, hdiagnostics⟩ := ih (r.report e.diagnostic)
          refine ⟨.error e :: skipped, congrArg (.error e :: ·) hupcoming, ?_, ?_⟩
          · refine hpanic.trans ?_
            cases hr : r.panicMode <;> simp [report, hr, Scanned.errors]
          · refine hdiagnostics.trans ?_
            cases hr : r.panicMode <;> simp [report, hr, Scanned.errors]

theorem skips_advance (r : Reader) : ∃ skipped, r.Skips skipped r.advance := by
  obtain ⟨skipped, hupcoming, hpanic, hdiagnostics⟩ :=
    skips_advanceOver { r with previous := r.current } r.upcoming
  exact ⟨skipped, hupcoming, hpanic, hdiagnostics⟩

theorem skips_iterate (n : Nat) (r : Reader) : ∃ skipped, r.Skips skipped (advance^[n] r) := by
  induction n generalizing r with
  | zero => exact ⟨[], .refl r⟩
  | succ n ih =>
      obtain ⟨first, hfirst⟩ := skips_advance r
      obtain ⟨rest, hrest⟩ := ih r.advance
      exact ⟨first ++ rest, hfirst.trans hrest⟩

/-- Tokens are taken one by one, as long as there is no boundary. -/
theorem skipToBoundary_eq (clock : List (Scanned Symbol)) (skipped : Nat) (r : Reader) :
    ∃ n, r.skipToBoundary clock skipped = (skipped + n, advance^[n] r) ∧
      ∀ k < n, (advance^[k] r).atBoundary = false := by
  have hstop (skipped : Nat) (r : Reader) : ∃ n, (skipped, r) = (skipped + n, advance^[n] r) ∧
      ∀ k < n, (advance^[k] r).atBoundary = false := ⟨0, rfl, fun _ hk => nomatch hk⟩
  induction clock generalizing skipped r with
  | nil =>
      unfold skipToBoundary
      split
      · exact hstop skipped r
      · rename_i hr
        refine ⟨1, rfl, fun k hk => ?_⟩
        obtain rfl : k = 0 := Nat.lt_one_iff.mp hk
        exact Bool.eq_false_iff.mpr hr
  | cons item clock ih =>
      unfold skipToBoundary
      split
      · exact hstop skipped r
      · rename_i hr
        obtain ⟨n, hn, hbefore⟩ := ih (skipped + 1) r.advance
        refine ⟨n + 1, hn.trans (by rw [Function.iterate_succ_apply]; congr 1; omega), ?_⟩
        intro k hk
        cases k with
        | zero => exact Bool.eq_false_iff.mpr hr
        | succ k =>
            rw [Function.iterate_succ_apply]
            exact hbefore k (Nat.lt_of_succ_lt_succ hk)

/-- Skipping stops at the first boundary, and it counts the tokens before it. Reports are suppressed
there exactly if there is a lexical error among the items that were skipped. Of these errors the
first one is reported, and no other. So reports are allowed again if and only if no lexical error
was skipped. -/
theorem synchronize_eq (r : Reader) :
    ∃ n skipped, r.synchronize = (n, advance^[n] { r with panicMode := false }) ∧
      r.synchronize.2.atBoundary = true ∧
      (∀ k < n, (advance^[k] { r with panicMode := false }).atBoundary = false) ∧
      r.upcoming = skipped ++ r.synchronize.2.upcoming ∧
      (r.synchronize.2.panicMode = false ↔ Scanned.errors skipped = []) ∧
      r.synchronize.2.diagnostics =
        ((Scanned.errors skipped).head?.map LexicalError.diagnostic).toList ++ r.diagnostics := by
  obtain ⟨n, hn, hbefore⟩ := skipToBoundary_eq r.upcoming 0 { r with panicMode := false }
  rw [Nat.zero_add] at hn
  obtain ⟨skipped, hskips⟩ := skips_iterate n { r with panicMode := false }
  have hlast : r.synchronize.2 = advance^[n] { r with panicMode := false } := congrArg Prod.snd hn
  refine ⟨n, skipped, hn, atBoundary_synchronize r, hbefore, ?_, ?_, ?_⟩
  · rw [hlast]
    exact hskips.upcoming
  · rw [hlast, hskips.panicMode]
    simp
  · rw [hlast]
    exact hskips.diagnostics

end Reader

namespace Compilation

/-- What is wrong with a source, if it is compiled to its end. -/
def diagnostics? (source : Bytes) : Option (List Diagnostic) :=
  match ofSource source .empty with
  | .error _ => none
  | .ok c =>
      match c.result with
      | .ok _ => some []
      | .error diagnostics => some diagnostics

/-- Reports may stay suppressed after the tokens up to a boundary were skipped. Then a problem of a
later statement is not reported: of `1 2 @; print ;`, nothing is said about the missing expression,
although it is reported for the same source without the malformed part. -/
theorem silence_after_malformed_part :
    (∃ r : Reader, r.synchronize.2.panicMode = true) ∧
      diagnostics? (ascii ['1', ' ', '2', ' ', '@', ';', ' ', 'p', 'r', 'i', 'n', 't', ' ', ';']) =
        some [⟨.expected "Expect ';' after expression.", 1, .lexeme [byteOf '2']⟩,
          ⟨.lexical (.unexpected (byteOf '@')), 1, .noToken⟩] ∧
      diagnostics? (ascii ['1', ' ', '2', ' ', ';', ' ', 'p', 'r', 'i', 'n', 't', ' ', ';']) =
        some [⟨.expected "Expect ';' after expression.", 1, .lexeme [byteOf '2']⟩,
          ⟨.expectedExpression, 1, .lexeme [byteOf ';']⟩] := by
  refine ⟨⟨.start [.ok ⟨.comma, .start, ⟨0, 1⟩, []⟩, .error ⟨.unexpected (byteOf '@'), .start⟩,
    .ok ⟨.semicolon, .start, ⟨2, 3⟩, []⟩], rfl⟩, ?_, ?_⟩
  · decide +kernel
  · decide +kernel

end Compilation

end LoxCompiler
