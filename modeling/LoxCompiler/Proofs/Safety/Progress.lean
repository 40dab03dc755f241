import LoxCompiler.Proofs.Safety.Stacks

/-! # Progress

Every loop of the compiler ends because each of its rounds takes a token. Most steps take one by
their first action. A step that takes none leaves the next token as it is, so what a construct
does with that token can wait until the construct has tried all else.
-/

set_option synthInstance.maxSize 4096

namespace LoxCompiler

/-- Either the given token is still the next one, or it was taken. -/
theorem Reader.stable_next {token : Token Symbol} (htoken : token.kind ≠ .endOfInput) (n : Nat) :
    Stable fun r => r.remaining < n ∨ r.current = token ∧ r.remaining ≤ n where
  advance r h := by
    rcases h with h | ⟨hcurrent, h⟩
    · exact .inl (Nat.lt_of_le_of_lt (remaining_advance_le r) h)
    · exact .inl (Nat.lt_of_lt_of_le (remaining_advance_lt (hcurrent ▸ htoken)) h)
  report r d h := by
    rw [remaining_report]
    rcases h with h | ⟨hcurrent, h⟩
    · exact .inl h
    · refine .inr ⟨?_, h⟩
      unfold report
      split <;> exact hcurrent
  resume _ h := h

namespace Compile

variable {β : Type} {w : Width β} {α γ : Type} {n : Nat}

/-- A kind of token that can be taken. -/
def IsToken (kind : TokenKind Symbol) : Prop := kind ≠ .endOfInput

/-- A token that goes on with the body of a block or a class. -/
def InsideBraces (kind : TokenKind Symbol) : Prop := kind ≠ .closeBrace ∧ kind ≠ .endOfInput

/-- A step that takes a token, if the next one is of some kinds. -/
class Progress (P : TokenKind Symbol → Prop) (m : Compile w.settings α) : Prop where
  takes : ∀ {s a t}, m.run s = .ok (a, t) → P s.reader.current.kind →
    t.reader.remaining < s.reader.remaining

/-- A step takes a token or leaves the next one as it is. -/
theorem taken_or_next {m : Compile w.settings α} [hm : Orderly m] {s t : Session β} {a : α}
    (h : m.run s = .ok (a, t)) (hs : s.reader.current.kind ≠ .endOfInput) :
    t.reader.remaining < s.reader.remaining ∨
      t.reader.current = s.reader.current ∧ t.reader.remaining ≤ s.reader.remaining :=
  hm.keeps (Reader.stable_next hs _) h (.inr ⟨rfl, Nat.le_refl _⟩)

namespace Progress

variable {P : TokenKind Symbol → Prop} {m : Compile w.settings α} {k : α → Compile w.settings γ}

/-- The first step takes the token. -/
theorem first_of [hm : Progress P m] (hk : ∀ a, Orderly (k a)) : Progress P (m >>= k) where
  takes h hs := by
    obtain ⟨a, t, hfirst, hrest⟩ := ok_of_run_bind h
    exact Nat.lt_of_le_of_lt (remaining_le_of_run hrest) (hm.takes hfirst hs)

theorem first [Progress P m] [hk : ∀ a, Orderly (k a)] : Progress P (m >>= k) := first_of hk

/-- The first step may leave the token to the rest. -/
theorem rest_of [Orderly m] (horderly : ∀ a, Orderly (k a))
    (hP : ∀ kind, P kind → kind ≠ .endOfInput) (hk : ∀ a, Progress P (k a)) :
    Progress P (m >>= k) where
  takes h hs := by
    obtain ⟨a, t, hfirst, hrest⟩ := ok_of_run_bind h
    rcases taken_or_next hfirst (hP _ hs) with hlt | ⟨hnext, hle⟩
    · exact Nat.lt_of_le_of_lt (remaining_le_of_run hrest) hlt
    · exact Nat.lt_of_lt_of_le ((hk a).takes hrest (hnext ▸ hs)) hle

theorem rest [Orderly m] [horderly : ∀ a, Orderly (k a)] (hP : ∀ kind, P kind → kind ≠ .endOfInput)
    (hk : ∀ a, Progress P (k a)) : Progress P (m >>= k) :=
  rest_of horderly hP hk

end Progress

instance : Progress IsToken (advance : Compile w.settings Unit) where
  takes h hs := by
    cases h
    exact Reader.remaining_advance_lt hs

section Accept

variable {kind : TokenKind Symbol} {s : Session β}

theorem run_accept_of_eq (h : s.reader.current.kind = kind) :
    (accept kind : Compile w.settings Bool).run s =
      .ok (true, { s with reader := s.reader.advance }) := by
  have haccept : s.reader.accept kind = (true, s.reader.advance) := by
    simp [Reader.accept, Reader.check, h]
  show Except.ok ((s.reader.accept kind).1, { s with reader := (s.reader.accept kind).2 }) = _
  rw [haccept]

theorem run_accept_of_ne (h : s.reader.current.kind ≠ kind) :
    (accept kind : Compile w.settings Bool).run s = .ok (false, s) := by
  have haccept : s.reader.accept kind = (false, s.reader) := by
    simp [Reader.accept, Reader.check, h]
  show Except.ok ((s.reader.accept kind).1, { s with reader := (s.reader.accept kind).2 }) = _
  rw [haccept]

end Accept

/-! ## Loops -/

section Loops

variable {condition : Compile w.settings Bool} {step : Compile w.settings Unit} {budget : Nat}

/-- A loop ends if each of its rounds takes a token. -/
theorem safe_repeatWhile [Orderly condition] [Orderly step] [Safe n condition] [Safe n step]
    (hround : ∀ {s t u : Session β}, condition.run s = .ok (true, t) → step.run t = .ok ((), u) →
      u.reader.remaining < s.reader.remaining) (hn : n ≤ budget) :
    Safe n (repeatWhile condition step budget) := by
  have hloop : ∀ (budget : Nat) {σ : Shape β} {s : Session β}, s.Shaped σ →
      s.reader.remaining < n → s.reader.remaining < budget →
        ∃ t, (repeatWhile condition step budget).run s = .ok ((), t) ∧ t.Shaped σ := by
    intro budget
    induction budget with
    | zero => exact fun _ _ h => absurd h (Nat.not_lt_zero _)
    | succ budget ih =>
        intro σ s hs hn hbudget
        obtain ⟨go, t, hcondition, ht⟩ := Safe.runs (m := condition) hs hn
        have hle := remaining_le_of_run hcondition
        unfold repeatWhile
        rw [run_bind_of_ok hcondition]
        cases go with
        | false => exact ⟨t, rfl, ht⟩
        | true =>
            obtain ⟨_, u, hstep, hu⟩ := Safe.runs (m := step) (n := n) ht (by omega)
            have hlt := hround hcondition hstep
            obtain ⟨v, hrest, hv⟩ := ih hu (by omega) (by omega)
            rw [if_pos rfl]
            exact ⟨v, (run_bind_of_ok hstep).trans hrest, hv⟩
  constructor
  intro σ s hs hremaining
  obtain ⟨t, hrun, ht⟩ := hloop budget hs hremaining (by omega)
  exact ⟨(), t, hrun, ht⟩

variable (item : Nat → Compile w.settings Unit)

/-- A list of items ends, since each comma is a token. -/
theorem safe_separated [∀ count, Orderly (item count)] [hitem : ∀ count, Safe n (item count)]
    (count : Nat) (hn : n ≤ budget) : Safe n (separated item budget count) := by
  have hlist : ∀ (budget count : Nat) {σ : Shape β} {s : Session β}, s.Shaped σ →
      s.reader.remaining < n → s.reader.remaining < budget →
        ∃ a t, (separated item budget count).run s = .ok (a, t) ∧ t.Shaped σ := by
    intro budget
    induction budget with
    | zero => exact fun _ _ _ _ _ h => absurd h (Nat.not_lt_zero _)
    | succ budget ih =>
        intro count σ s hs hn hbudget
        obtain ⟨_, t, hrun, ht⟩ := (hitem count).runs hs hn
        have hle := remaining_le_of_run hrun
        unfold separated
        rw [run_bind_of_ok hrun]
        by_cases hcomma : t.reader.current.kind = .comma
        · have hlt : t.reader.advance.remaining < t.reader.remaining :=
            Reader.remaining_advance_lt (by rw [hcomma]; exact nofun)
          rw [run_bind_of_ok (run_accept_of_eq hcomma)]
          exact ih (count + 1) (ht.congr rfl rfl) (Nat.lt_of_lt_of_le hlt (by omega))
            (Nat.lt_of_lt_of_le hlt (by omega))
        · rw [run_bind_of_ok (run_accept_of_ne hcomma)]
          exact ⟨_, t, rfl, ht⟩
  constructor
  intro σ s hs hremaining
  exact hlist budget count hs hremaining (by omega)

end Loops

end Compile

end LoxCompiler
