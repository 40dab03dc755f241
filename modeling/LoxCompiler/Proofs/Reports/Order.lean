import LoxCompiler.Proofs.Reports.Paced
import LoxCompiler.Proofs.Scanning.Reference

/-! # Reports in order

The lines of the items of a source do not decrease. So neither do those of the reports, as long as
nothing is reported on a line before that of an older report. A report at the next token never is,
and a report at the last token taken is not if it comes from a settled reader.
-/

namespace LoxCompiler

namespace Scanned

/-- The line of an item. -/
def line {ν : Type} : Scanned ν → Nat
  | .ok token => token.position.line
  | .error e => e.position.line

/-- Items with lines that do not decrease, of which the last one is no error. -/
structure Ordered (items : List (Scanned Symbol)) : Prop where
  sorted : items.Pairwise fun item next => item.line ≤ next.line
  closed : ∀ e, items.getLast? ≠ some (.error e)

variable {items rest : List (Scanned Symbol)} {item : Scanned Symbol}

theorem Ordered.le_of_suffix (h : Ordered items) (hrest : item :: rest <:+ items) :
    ∀ next ∈ rest, item.line ≤ next.line :=
  (List.pairwise_cons.mp (h.sorted.sublist hrest.sublist)).1

theorem Ordered.ne_nil_of_suffix {e : LexicalError} (h : Ordered items)
    (hrest : .error e :: rest <:+ items) : rest ≠ [] := by
  rintro rfl
  obtain ⟨before, rfl⟩ := hrest
  exact h.closed e (by simp)

end Scanned

/-- A diagnostic that shows a lexeme is on the line of a token of some items, and shows the lexeme
of that token. -/
def Diagnostic.ShowsOneOf (items : List (Scanned Symbol)) (d : Diagnostic) : Prop :=
  ∀ text, d.place = .lexeme text → ∃ token, .ok token ∈ items ∧ token.kind ≠ .endOfInput ∧
    token.lexeme = text ∧ token.position.line = d.line

theorem LexicalError.showsOneOf (items : List (Scanned Symbol)) (e : LexicalError) :
    e.diagnostic.ShowsOneOf items := nofun

theorem Token.showsOneOf {items : List (Scanned Symbol)} {token : Token Symbol}
    (h : token.kind ≠ .endOfInput → .ok token ∈ items) (problem : Diagnostic.Problem) :
    (token.diagnostic problem).ShowsOneOf items := by
  intro text htext
  by_cases hend : token.kind = .endOfInput
  · simp [diagnostic, hend] at htext
  · simp only [diagnostic, if_neg hend, Diagnostic.Place.lexeme.injEq] at htext
    exact ⟨token, h hend, hend, htext, rfl⟩

namespace Reader

/-- A reader has come to some place of some items, and what it has reported is in order. -/
structure Ordered (items : List (Scanned Symbol)) (r : Reader) : Prop where
  suffix : r.upcoming <:+ items
  previous : r.previous.kind ≠ .endOfInput → .ok r.previous ∈ items
  current : r.current.kind ≠ .endOfInput → .ok r.current ∈ items
  previous_le : r.previous.position.line ≤ r.current.position.line
  current_le : ∀ item ∈ r.upcoming, r.current.position.line ≤ item.line
  sorted : r.diagnostics.Pairwise fun newer older => older.line ≤ newer.line
  reached : ∀ d ∈ r.diagnostics, d.line ≤ r.current.position.line
  shows : ∀ d ∈ r.diagnostics, d.ShowsOneOf items

/-- A report at the last token taken is in order, or else it is suppressed. -/
structure Settled (items : List (Scanned Symbol)) (r : Reader) : Prop extends r.Ordered items where
  settled : r.panicMode = true ∨ ∀ d ∈ r.diagnostics, d.line ≤ r.previous.position.line

/-- What reading keeps of the order, in the two modes of steps. -/
def InOrder (items : List (Scanned Symbol)) : Bool → Reader → Prop
  | false, r => r.Ordered items
  | true, r => r.Settled items

/-- A reader that has taken its last token and has no next one yet, before some items. -/
structure Approaches (items : List (Scanned Symbol)) (r : Reader) (rest : List (Scanned Symbol)) :
    Prop where
  suffix : rest <:+ items
  same : r.previous = r.current
  current : r.current.kind ≠ .endOfInput → .ok r.current ∈ items
  current_le : ∀ item ∈ rest, r.current.position.line ≤ item.line
  sorted : r.diagnostics.Pairwise fun newer older => older.line ≤ newer.line
  reached : ∀ d ∈ r.diagnostics, ∀ item ∈ rest, d.line ≤ item.line
  shows : ∀ d ∈ r.diagnostics, d.ShowsOneOf items
  settled : (∀ d ∈ r.diagnostics, d.line ≤ r.current.position.line) ∨
    r.panicMode = true ∧ rest ≠ []

variable {items rest : List (Scanned Symbol)} {r : Reader}

theorem Ordered.approaches (h : r.Ordered items) :
    ({ r with previous := r.current } : Reader).Approaches items r.upcoming where
  suffix := h.suffix
  same := rfl
  current := h.current
  current_le := h.current_le
  sorted := h.sorted
  reached d hd item hitem := (h.reached d hd).trans (h.current_le item hitem)
  shows := h.shows
  settled := .inl h.reached

/-- An error on the way is reported in order. -/
theorem Approaches.report {e : LexicalError} (hitems : Scanned.Ordered items)
    (h : r.Approaches items (.error e :: rest)) : (r.report e.diagnostic).Approaches items rest := by
  have hne := hitems.ne_nil_of_suffix h.suffix
  have hrest : ∀ item ∈ rest, e.position.line ≤ item.line := hitems.le_of_suffix h.suffix
  have hsuffix := (List.suffix_cons _ rest).trans h.suffix
  have hcurrent_le := fun item hitem => h.current_le item (List.mem_cons_of_mem _ hitem)
  unfold Reader.report
  split
  · rename_i hpanic
    exact { h with
      suffix := hsuffix
      current_le := hcurrent_le
      reached := fun d hd item hitem => h.reached d hd item (List.mem_cons_of_mem _ hitem)
      settled := .inr ⟨hpanic, hne⟩ }
  · have hle : ∀ d ∈ r.diagnostics, d.line ≤ e.position.line :=
      fun d hd => h.reached d hd (.error e) List.mem_cons_self
    refine ⟨hsuffix, h.same, h.current, hcurrent_le, List.pairwise_cons.mpr ⟨hle, h.sorted⟩, ?_, ?_,
      .inr ⟨rfl, hne⟩⟩
    · intro d hd item hitem
      rcases List.mem_cons.mp hd with rfl | hd
      · exact hrest item hitem
      · exact (hle d hd).trans (hrest item hitem)
    · intro d hd
      rcases List.mem_cons.mp hd with rfl | hd
      · exact e.showsOneOf items
      · exact h.shows d hd

/-- A reader is settled at its next token. -/
theorem Approaches.settled_advanceOver (hitems : Scanned.Ordered items)
    (h : r.Approaches items rest) : (r.advanceOver rest).Settled items := by
  induction rest generalizing r with
  | nil =>
      have hreached : ∀ d ∈ r.diagnostics, d.line ≤ r.current.position.line :=
        h.settled.resolve_right fun hpanic => hpanic.2 rfl
      have hprevious := h.same ▸ h.current
      have hle : r.previous.position.line ≤ r.current.position.line :=
        (congrArg (fun token => token.position.line) h.same).le
      exact ⟨⟨List.nil_suffix, hprevious, fun hkind => absurd rfl hkind, hle,
        by simp [advanceOver], h.sorted, hreached, h.shows⟩, .inr (h.same ▸ hreached)⟩
  | cons item rest ih =>
      cases item with
      | error e => exact ih (h.report hitems)
      | ok token =>
          have htoken : .ok token ∈ items := h.suffix.subset List.mem_cons_self
          have hle : r.current.position.line ≤ token.position.line :=
            h.current_le (.ok token) List.mem_cons_self
          refine ⟨⟨(List.suffix_cons _ rest).trans h.suffix, h.same ▸ h.current, fun _ => htoken,
            h.same ▸ hle, hitems.le_of_suffix h.suffix, h.sorted,
            fun d hd => h.reached d hd _ List.mem_cons_self, h.shows⟩, ?_⟩
          rcases h.settled with hreached | ⟨hpanic, -⟩
          · exact .inr (h.same ▸ hreached)
          · exact .inl hpanic

/-- A report at a token is in order if no older one is on a later line. -/
theorem Ordered.reportAt (h : r.Ordered items) {token : Token Symbol}
    (htoken : token.kind ≠ .endOfInput → .ok token ∈ items)
    (hle : token.position.line ≤ r.current.position.line)
    (hreached : r.panicMode = true ∨ ∀ d ∈ r.diagnostics, d.line ≤ token.position.line)
    (problem : Diagnostic.Problem) : (r.reportAt token problem).Settled items := by
  change (r.report (token.diagnostic problem)).Settled items
  unfold Reader.report
  split
  · rename_i hpanic
    exact ⟨h, .inl hpanic⟩
  · rename_i hpanic
    have hreached := hreached.resolve_left hpanic
    refine ⟨{ h with
      sorted := List.pairwise_cons.mpr ⟨hreached, h.sorted⟩
      reached := List.forall_mem_cons.mpr ⟨hle, h.reached⟩
      shows := List.forall_mem_cons.mpr ⟨Token.showsOneOf htoken problem, h.shows⟩ }, .inl rfl⟩

/-- Reading keeps the order of reports. -/
theorem paced_inOrder (hitems : Scanned.Ordered items) : Paced (InOrder items) where
  relax _ h := h.toOrdered
  advance _ h := h.approaches.settled_advanceOver hitems
  reportPrevious _ problem h := h.toOrdered.reportAt h.previous h.previous_le h.settled problem
  reportCurrent _ problem h := h.reportAt h.current (Nat.le_refl _) (.inr h.reached) problem
  resume _ h := { h with }

end Reader

/-! ## Items of a source -/

theorem Position.line_ofBefore_le (before more : Bytes) :
    (ofBefore before).line ≤ (ofBefore (before ++ more)).line := by
  simp [ofBefore]

namespace Tokenized

variable {before rest : Bytes} {items : List (Scanned Bytes)}

theorem line_le (h : Tokenized before rest items) :
    ∀ item ∈ items, (Position.ofBefore before).line ≤ item.line := by
  induction h with
  | finish => exact fun item hitem => List.mem_singleton.mp hitem ▸ Nat.le_refl _
  | @lexeme before first more rest lexeme items _ _ ih =>
      intro item hitem
      rcases List.mem_append.mp hitem with hitem | hitem
      · cases lexeme with
        | blank => cases hitem
        | token kind => exact List.mem_singleton.mp hitem ▸ Nat.le_refl _
        | malformed cause => exact List.mem_singleton.mp hitem ▸ Nat.le_refl _
      · exact (Position.line_ofBefore_le _ _).trans (ih item hitem)

/-- The lines of items do not decrease. -/
theorem pairwise_line (h : Tokenized before rest items) :
    items.Pairwise fun item next => item.line ≤ next.line := by
  induction h with
  | finish => exact List.pairwise_singleton _ _
  | @lexeme before first more rest lexeme items _ hrest ih =>
      have hle := fun item hitem => (Position.line_ofBefore_le before (first :: more)).trans
        (hrest.line_le item hitem)
      cases lexeme with
      | blank => exact ih
      | token kind => exact List.pairwise_cons.mpr ⟨hle, ih⟩
      | malformed cause => exact List.pairwise_cons.mpr ⟨hle, ih⟩

end Tokenized

end LoxCompiler
