import LoxCompiler.Proofs.History.Traced
import LoxCompiler.Proofs.Reports.Source

/-! # The tokens that a reader has taken

A reader takes the tokens of its items in turn, and the last one, the end of the input, again and
again. So while it reads on, the line of the last token taken does not decrease. This line is the
one on which the token starts: one more than there are ends of lines before its first byte.
-/

namespace LoxCompiler

namespace Scanned

variable {items rest : List (Scanned Symbol)} {token : Token Symbol} {taken : List (Token Symbol)}
  {extra : Nat}

/-- The tokens among some items. -/
def tokens (items : List (Scanned Symbol)) : List (Token Symbol) := items.filterMap Except.toOption

@[simp] theorem tokens_append (items more : List (Scanned Symbol)) :
    tokens (items ++ more) = tokens items ++ tokens more :=
  List.filterMap_append

theorem mem_tokens : token ∈ tokens items ↔ .ok token ∈ items := by
  unfold tokens
  rw [List.mem_filterMap]
  constructor
  · rintro ⟨item | other, hitem, hother⟩ <;> cases hother
    exact hitem
  · exact fun h => ⟨.ok token, h, rfl⟩

/-- The tokens among some items, with the last one given again and again after it. -/
def tokensPast (items : List (Scanned Symbol)) (extra : Nat) : List (Token Symbol) :=
  tokens items ++ List.replicate extra ((tokens items).getLastD (.endAt .start 0))

/-- The last one of some items is the end of the input. -/
def Ended (items : List (Scanned Symbol)) : Prop :=
  ∃ before last, items = before ++ [.ok last] ∧ last.kind = .endOfInput

theorem Ended.exists_tokens (h : Ended items) : ∃ before last, last.kind = .endOfInput ∧
    tokens items = before ++ [last] ∧
    ∀ extra, tokensPast items extra = before ++ List.replicate (extra + 1) last := by
  obtain ⟨before, last, rfl, hlast⟩ := h
  have htokens : tokens (before ++ [.ok last]) = tokens before ++ [last] := tokens_append _ _
  refine ⟨tokens before, last, hlast, htokens, fun extra => ?_⟩
  rw [tokensPast, htokens, List.getLastD_concat, List.append_assoc, List.replicate_succ]
  rfl

/-- What comes last is the end of the input, and it comes again. -/
theorem Ended.concat (h : Ended items) (htaken : taken ++ [token] = tokensPast items extra) :
    token.kind = .endOfInput ∧ taken ++ [token, token] = tokensPast items (extra + 1) := by
  obtain ⟨before, last, hlast, -, hpast⟩ := h.exists_tokens
  rw [hpast, List.replicate_succ', ← List.append_assoc] at htaken
  obtain ⟨rfl, heq⟩ := List.append_inj' htaken rfl
  obtain rfl := List.singleton_inj.mp heq
  refine ⟨hlast, ?_⟩
  rw [hpast, List.replicate_succ', List.replicate_succ']
  simp only [List.append_assoc, List.cons_append, List.nil_append]

theorem Ended.mem_tokens (h : Ended items) (htoken : token ∈ tokensPast items extra) :
    token ∈ tokens items := by
  obtain ⟨before, last, -, htokens, hpast⟩ := h.exists_tokens
  rw [hpast] at htoken
  rw [htokens]
  rcases List.mem_append.mp htoken with htoken | htoken
  · exact List.mem_append_left _ htoken
  · rw [(List.mem_replicate.mp htoken).2]
    exact List.mem_append_right _ List.mem_cons_self

end Scanned

open Scanned

namespace Reader

/-- The tokens that a reader of some items has taken, its next token and those after it are the
tokens of these items in turn, the last one of them again and again. Before the first token stands
an end of input at the first place of the source. -/
structure Took (items : List (Scanned Symbol)) (taken : List (Token Symbol)) (r : Reader) :
    Prop where
  previous : r.previous = taken.getLastD (.endAt .start 0)
  sequence : ∃ extra, taken ++ r.current :: tokens r.upcoming = tokensPast items extra

variable {items : List (Scanned Symbol)} {taken : List (Token Symbol)} {r r' : Reader}

theorem current_report (r : Reader) (d : Diagnostic) : (r.report d).current = r.current := by
  unfold report
  split <;> rfl

/-- The next token is the first one of some items, or the end of the input if there is none. -/
theorem tokens_advanceOver (r : Reader) (rest : List (Scanned Symbol)) :
    (r.advanceOver rest).current :: tokens (r.advanceOver rest).upcoming = tokens rest ∨
      tokens rest = [] ∧ (r.advanceOver rest).upcoming = [] ∧
        (r.advanceOver rest).current = { r.current with kind := .endOfInput } := by
  fun_induction advanceOver r rest with
  | case1 => exact .inr ⟨rfl, rfl, rfl⟩
  | case2 => exact .inl rfl
  | case3 r e rest ih =>
      rw [current_report] at ih
      exact ih

theorem Took.advance (hitems : Ended items) (h : r.Took items taken) :
    r.advance.Took items (taken ++ [r.current]) := by
  obtain ⟨extra, hsequence⟩ := h.sequence
  refine ⟨by rw [previous_advance, List.getLastD_concat], ?_⟩
  unfold Reader.advance
  rcases tokens_advanceOver { r with previous := r.current } r.upcoming with
    hnext | ⟨hnone, hend, hlast⟩
  · refine ⟨extra, ?_⟩
    rw [List.append_assoc, List.singleton_append, hnext]
    exact hsequence
  · -- Nothing is left after the next token, so it is the end of the input, and it comes again.
    rw [hnone] at hsequence
    obtain ⟨hkind, hagain⟩ := hitems.concat hsequence
    have hcurrent : ({ r.current with kind := .endOfInput } : Token Symbol) = r.current := by
      rw [← hkind]
    refine ⟨extra + 1, ?_⟩
    rw [hend, hlast, hcurrent, List.append_assoc, List.singleton_append]
    exact hagain

/-- A reader has taken nothing at first. -/
theorem took_start (hitems : Ended items) : (Reader.start items).Took items [] := by
  refine ⟨previous_advance _, 0, ?_⟩
  rw [tokensPast, List.replicate_zero, List.append_nil, List.nil_append]
  refine (tokens_advanceOver _ items).resolve_right fun hnone => ?_
  obtain ⟨before, last, rfl, -⟩ := hitems
  rw [tokens_append] at hnone
  exact List.append_ne_nil_of_right_ne_nil _ (List.cons_ne_nil last _) hnone.1

/-- A reader keeps what it has taken. -/
theorem stable_took (hitems : Ended items) (taken : List (Token Symbol)) :
    Stable fun r => ∃ more, r.Took items (taken ++ more) where
  advance r h := by
    obtain ⟨more, hmore⟩ := h
    exact ⟨more ++ [r.current], List.append_assoc taken more _ ▸ hmore.advance hitems⟩
  report r d h := by
    unfold report
    split
    · exact h
    · exact h.imp fun _ hmore => ⟨hmore.previous, hmore.sequence⟩
  resume _ h := h.imp fun _ hmore => ⟨hmore.previous, hmore.sequence⟩

theorem Took.leadsTo (hitems : Ended items) (h : r.Took items taken) (hr : r.LeadsTo r') :
    ∃ more, r'.Took items (taken ++ more) :=
  hr _ (stable_took hitems taken) ⟨[], (List.append_nil taken).symm ▸ h⟩

/-- After a token was taken, there is one that was taken last. -/
theorem Took.takenBefore (hitems : Ended items) (h : r.Took items taken) (hr : r.TakenBefore r') :
    ∃ before token, r'.Took items (before ++ [token]) := by
  obtain ⟨q, hq, htaken⟩ := hr
  obtain ⟨more, hmore⟩ := h.leadsTo hitems hq
  obtain ⟨later, hlater⟩ := (hmore.advance hitems).leadsTo hitems htaken
  rcases later.eq_nil_or_concat' with rfl | ⟨later, token, rfl⟩
  · exact ⟨_, _, List.append_nil _ ▸ hlater⟩
  · exact ⟨_, token, (List.append_assoc _ later [token]).symm ▸ hlater⟩

/-- A token that was taken is one of the items. -/
theorem Took.mem (hitems : Ended items) (h : r.Took items taken) {token : Token Symbol}
    (htoken : token ∈ taken) : token ∈ tokens items := by
  obtain ⟨extra, hsequence⟩ := h.sequence
  exact hitems.mem_tokens (hsequence ▸ List.mem_append_left _ htoken)

end Reader

/-! ## Lines of a source -/

namespace Compilation

variable {source : Bytes} {table : SymbolTable} {taken : List (Token Symbol)} {r r' : Reader}

theorem ended_items (source : Bytes) (table : SymbolTable) : Ended (items source table) := by
  obtain ⟨before, last, hitems, hlast, -⟩ := Scanned.internAll_ofSource source table
  exact ⟨before, last, hitems, hlast⟩

/-- The position of a token is that of its first byte, or of the end of the source. -/
theorem position_of_mem_tokens {token : Token Symbol} (h : token ∈ tokens (items source table)) :
    token.position = .ofBefore (source.take token.span.start) := by
  obtain ⟨f, hnames⟩ := exists_mapName_items source table
  obtain ⟨standing, hsource, hstanding⟩ := (Tokenized.ofSource source).exists_eq_append
  have hmem : .ok (token.mapName f) ∈ Scanned.ofSource source := by
    rw [← hnames]
    exact List.mem_map_of_mem (f := Scanned.mapName f) (mem_tokens.mp h)
  rw [hsource, List.mem_append] at hmem
  rcases hmem with hmem | hmem
  · exact (hstanding _ hmem).2.position
  · have hend : token.mapName f = .endAt (.ofBefore source) source.length :=
      Except.ok.inj (List.mem_singleton.mp hmem)
    have hposition : token.position = .ofBefore source := congrArg Token.position hend
    have hspan : token.span.start = source.length := congrArg (fun t => t.span.start) hend
    rw [hposition, hspan, List.take_length]

/-- The line of a token is one more than there are ends of lines before it. -/
theorem line_of_mem_tokens {token : Token Symbol} (h : token ∈ tokens (items source table)) :
    token.position.line = 1 + (source.take token.span.start).count (byteOf '\n') :=
  congrArg Position.line (position_of_mem_tokens h)

/-- The line of the last token taken is one of the source. -/
theorem previous_line_bounds (h : r.Took (items source table) taken) :
    1 ≤ r.previous.position.line ∧
      r.previous.position.line ≤ 1 + source.count (byteOf '\n') := by
  rw [h.previous]
  rcases taken.eq_nil_or_concat' with rfl | ⟨taken, token, rfl⟩
  · exact ⟨Nat.le_refl 1, Nat.le_add_right 1 _⟩
  · rw [List.getLastD_concat, line_of_mem_tokens (h.mem (ended_items source table) (by simp))]
    exact ⟨Nat.le_add_right 1 _, Nat.add_le_add_left ((List.take_sublist _ _).count_le _) 1⟩

/-- The lines of tokens do not decrease. -/
theorem pairwise_line (source : Bytes) (table : SymbolTable) (extra : Nat) :
    (Token.endAt .start 0 :: tokensPast (items source table) extra).Pairwise
      fun token next => token.position.line ≤ next.position.line := by
  have hsorted : (tokens (items source table)).Pairwise
      fun token next => token.position.line ≤ next.position.line := by
    refine (ordered_items source table).sorted.filterMap _ ?_
    rintro (e | token) (e' | token') hle other hother other' hother' <;>
      cases hother <;> cases hother'
    exact hle
  refine List.pairwise_cons.mpr ⟨fun token htoken => ?_, ?_⟩
  · rw [line_of_mem_tokens ((ended_items source table).mem_tokens htoken)]
    exact Nat.le_add_right 1 _
  · obtain ⟨before, last, -, htokens, hpast⟩ := (ended_items source table).exists_tokens
    rw [htokens, List.pairwise_append] at hsorted
    obtain ⟨hbefore, -, hle⟩ := hsorted
    rw [hpast, List.pairwise_append]
    refine ⟨hbefore, List.pairwise_replicate.mpr (.inr (Nat.le_refl _)), ?_⟩
    intro token htoken next hnext
    rw [(List.mem_replicate.mp hnext).2]
    exact hle token htoken last List.mem_cons_self

/-- While a reader reads on, the line of the last token taken does not decrease. -/
theorem previous_line_le (h : r.Took (items source table) taken) (hr : r.LeadsTo r') :
    r.previous.position.line ≤ r'.previous.position.line := by
  obtain ⟨more, h'⟩ := h.leadsTo (ended_items source table) hr
  obtain ⟨extra, hsequence⟩ := h'.sequence
  have hlines := pairwise_line source table extra
  rw [← hsequence, List.append_assoc, ← List.cons_append] at hlines
  have hbetween := (List.pairwise_append.mp hlines).2.2
  rw [h.previous, h'.previous, getLastD_append]
  rcases more.eq_nil_or_concat' with rfl | ⟨more, token, rfl⟩
  · exact Nat.le_refl _
  · rw [List.getLastD_concat]
    exact hbetween _ List.getLastD_mem_cons token (by simp)

end Compilation

end LoxCompiler
