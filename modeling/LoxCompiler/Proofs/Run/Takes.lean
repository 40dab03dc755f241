import LoxCompiler.Proofs.Run.Still
import LoxCompiler.Proofs.Syntax.Grammar

/-! # Taken tokens

Which tokens a clean run takes. Between two places of a source there is only one sequence of
tokens, so a step that takes given tokens leaves the reader at one place only.
-/

namespace LoxCompiler

namespace Reader

/-- Tokens of the given kinds are taken between two places, without a report. -/
def Takes : Reader → List Kind → Reader → Prop
  | r, [], r' => r.Quiet ∧ r' = r
  | r, kind :: kinds, r' => r.Quiet ∧ r.current.kind = kind ∧ r.advance.Takes kinds r'

theorem Takes.quiet {r r' : Reader} {ts : List Kind} (h : r.Takes ts r') : r.Quiet := by
  cases ts <;> exact h.1

theorem takes_append {r r' : Reader} {ts us : List Kind} :
    r.Takes (ts ++ us) r' ↔ ∃ q, r.Takes ts q ∧ q.Takes us r' := by
  induction ts generalizing r with
  | nil =>
      constructor
      · exact fun h => ⟨r, ⟨h.quiet, rfl⟩, h⟩
      · rintro ⟨q, ⟨_, rfl⟩, h⟩
        exact h
  | cons kind kinds ih =>
      simp only [List.cons_append, Takes, ih]
      constructor
      · rintro ⟨hr, hkind, q, hq⟩
        exact ⟨q, ⟨hr, hkind, hq.1⟩, hq.2⟩
      · rintro ⟨q, ⟨hr, hkind, hq⟩, hrest⟩
        exact ⟨hr, hkind, q, hq, hrest⟩

theorem Takes.unique {r q q' : Reader} {ts : List Kind} (h : r.Takes ts q) (h' : r.Takes ts q') :
    q' = q := by
  induction ts generalizing r with
  | nil => exact h'.2.trans h.2.symm
  | cons kind kinds ih => exact ih h.2.2 h'.2.2

end Reader

namespace Compile

variable {β : Type} {w : Width β} {α γ : Type}

/-- The clean runs of a step take tokens of the given kinds. -/
def Reads (ts : List Kind) (m : Compile w.settings α) : Prop :=
  ∀ ⦃s a t⦄, Cleanly m s a t → s.reader.Takes ts t.reader

namespace Reads

variable {ts us : List Kind} {m : Compile w.settings α} {k : α → Compile w.settings γ}

/-- A step that takes no token. -/
theorem silent [hm : Still m] : Reads [] m :=
  fun _ _ _ h => ⟨h.before, hm.reader_eq h⟩

protected theorem expect (kind : Kind) : Reads [kind] (expect kind : Compile w.settings Unit) := by
  intro s a t h
  obtain ⟨hkind, hadvance⟩ := cleanly_expect.mp h
  obtain ⟨hquiet, rfl, hlast⟩ := cleanly_advance.mp hadvance
  exact ⟨hquiet, hkind, hlast, rfl⟩

/-- One step after the other. -/
theorem bind [Orderly m] [∀ a, Orderly (k a)] (hm : Reads ts m) (hk : ∀ a, Reads us (k a)) :
    Reads (ts ++ us) (m >>= k) := by
  intro s b u h
  obtain ⟨a, t, hfirst, hrest⟩ := h.of_bind
  exact Reader.takes_append.mpr ⟨t.reader, hm hfirst, hk a hrest⟩

/-- A step that takes no token before another one. -/
theorem after [Orderly m] [∀ a, Orderly (k a)] [Still m] (hk : ∀ a, Reads us (k a)) :
    Reads us (m >>= k) :=
  silent.bind hk

/-- A step that takes no token after another one. -/
theorem before [Orderly m] [∀ a, Orderly (k a)] [∀ a, Still (k a)] (hm : Reads ts m) :
    Reads ts (m >>= k) := by
  have h := hm.bind fun a => (silent : Reads [] (k a))
  rwa [List.append_nil] at h

/-- A token before a step. -/
theorem token {kind : Kind} {k : Compile w.settings γ} [Orderly k] (hk : Reads us k) :
    Reads (kind :: us) (Compile.expect kind >>= fun _ => k) :=
  (Reads.expect kind).bind fun _ => hk

end Reads

end Compile

end LoxCompiler
