import LoxCompiler.Proofs.Safety.Source
import LoxCompiler.Proofs.Scanning.Automaton

/-! # Compilation is total

Every source is scanned and compiled to its end. No fault occurs on the way, in the automaton or
in the compiler, and no loop goes on for ever: each round of a loop takes a token.
-/

set_option synthInstance.maxSize 4096

namespace LoxCompiler

/-! ## Resynchronisation -/

namespace Reader

theorem length_upcoming_advanceOver (r : Reader) (items : List (Scanned Symbol)) :
    (r.advanceOver items).upcoming.length ≤ items.length - 1 := by
  induction items generalizing r with
  | nil => exact Nat.le_refl _
  | cons item items ih =>
      cases item with
      | ok token => exact Nat.le_refl _
      | error e => exact Nat.le_trans (ih _) (by simp)

theorem atBoundary_advance {r : Reader} (h : r.upcoming = []) : r.advance.atBoundary = true := by
  simp [advance, h, advanceOver, atBoundary]

theorem atBoundary_skipToBoundary (clock : List (Scanned Symbol)) (skipped : Nat) (r : Reader)
    (hclock : r.upcoming.length ≤ clock.length) :
    (r.skipToBoundary clock skipped).2.atBoundary = true := by
  induction clock generalizing skipped r with
  | nil =>
      unfold skipToBoundary
      split
      · assumption
      · exact atBoundary_advance (List.eq_nil_of_length_eq_zero (Nat.le_zero.mp hclock))
  | cons item clock ih =>
      unfold skipToBoundary
      split
      · assumption
      · have h := length_upcoming_advanceOver { r with previous := r.current } r.upcoming
        exact ih _ _ (Nat.le_trans h (Nat.sub_le_of_le_add hclock))

/-- Tokens are skipped until a statement may start, never less. -/
theorem atBoundary_synchronize (r : Reader) : r.synchronize.2.atBoundary = true :=
  atBoundary_skipToBoundary _ _ _ (Nat.le_refl _)

end Reader

/-! ## Sources -/

namespace Compilation

open Compile

/-- No source leads to a fault. The automaton gives the items that are compiled, and the end of
the input after them, without cutting outside of the source and without a symbol that no symbol
starts with. The compiler never asks for a function, class or scope where there is none, completes
each jump once and inside the code, and writes loops that start inside the code. -/
theorem faultless (source : Bytes) (table : SymbolTable) :
    (∀ extra, ∃ q, Automaton.scanMany source ((Scanned.ofSource source).length + extra)
      (Automaton.start source) = .ok (Scanned.ofSourcePast source extra, q)) ∧
    ∃ c, ofSource source table = .ok c :=
  ⟨fun extra => ⟨_, Automaton.scanMany_ofSource source extra⟩, runs_ofSourceWith source table⟩

/-- Everything ends. A source of some bytes has at most one item more, and the end of the input
again and again after them. Whatever the items are, they are compiled to the end. Every run of a
declaration takes a token if there is one, and so does every run of a method if the next token does
not end the class. From every state in which the stacks have a shape, with less than some number
of tokens left, both run to their end and leave the stacks as they were. Skipping tokens stops
only at a boundary. -/
theorem ends (source : Bytes) (table : SymbolTable) :
    (∃ last : Token Bytes, last.kind = .endOfInput ∧ ∀ extra, ∃ q,
      Automaton.scanMany source ((Scanned.ofSource source).length + extra)
        (Automaton.start source) = .ok (Scanned.ofSource source ++ List.replicate extra (.ok last), q)) ∧
    (Scanned.ofSource source).length ≤ source.length + 1 ∧
    (∃ c, ofSource source table = .ok c) ∧
    (∀ names items, ∃ f s, ofItems .byte names items = .ok (f, s)) ∧
    (∀ budget (s t : Session UInt8), (declaration budget : Compile .byte Unit).run s = .ok ((), t) →
      s.reader.current.kind ≠ .endOfInput → t.reader.remaining < s.reader.remaining) ∧
    (∀ budget (s t : Session UInt8),
      (method ⟨declaration budget, statement budget, budget + 1⟩ : Compile .byte Unit).run s =
        .ok ((), t) → s.reader.current.kind ≠ .closeBrace → s.reader.current.kind ≠ .endOfInput →
      t.reader.remaining < s.reader.remaining) ∧
    (∀ budget σ (s : Session UInt8), s.Shaped σ → s.reader.remaining < budget →
      (∃ t, (declaration budget : Compile .byte Unit).run s = .ok ((), t) ∧ t.Shaped σ) ∧
      ∃ t, (method ⟨declaration budget, statement budget, budget + 1⟩ : Compile .byte Unit).run s =
        .ok ((), t) ∧ t.Shaped σ) ∧
    ∀ r : Reader, r.synchronize.2.atBoundary = true := by
  refine ⟨⟨Scanned.endToken ((Cursor.start source).skip source.length), rfl, fun extra =>
      ⟨_, Automaton.scanMany_ofSource source extra⟩⟩, Scanned.length_ofSource_le source,
    runs_ofSourceWith source table, fun names items => runs_ofItems (w := .byte) names items, ?_, ?_,
    ?_, Reader.atBoundary_synchronize⟩
  · intro budget s t hrun hs
    exact ((sound_inner (w := .byte) budget).progress).takes hrun hs
  · intro budget s t hrun hbrace hend
    exact (progress_method (sound_inner (w := .byte) budget)).takes hrun ⟨hbrace, hend⟩
  · intro budget σ s hs hr
    have hsound := sound_inner (w := .byte) budget
    obtain ⟨_, t, hrun, ht⟩ := hsound.declaration.runs hs hr
    obtain ⟨_, u, hmethod, hu⟩ := (safe_method hsound).runs hs hr
    exact ⟨⟨t, hrun, ht⟩, u, hmethod, hu⟩

/-- A method in whose place only a semicolon stands ends, and takes the semicolon. -/
theorem ends_of_stray_semicolon :
    let s : Session UInt8 :=
      start (implicitNames .empty).1 [.ok ⟨.semicolon, .start, ⟨0, 1⟩, [byteOf ';']⟩]
    ∃ t, (method ⟨declaration 2, statement 2, 3⟩ : Compile .byte Unit).run s = .ok ((), t) ∧
      t.reader.remaining < s.reader.remaining := by
  obtain ⟨-, -, -, -, -, hprogress, hruns, -⟩ := ends [] .empty
  obtain ⟨-, t, hrun, -⟩ := hruns 2 _
    (start (implicitNames .empty).1 [.ok ⟨.semicolon, .start, ⟨0, 1⟩, [byteOf ';']⟩])
    (shaped_start _ _) (show 1 < 2 by decide)
  exact ⟨t, hrun, hprogress 2 _ t hrun nofun nofun⟩

end Compilation

end LoxCompiler
