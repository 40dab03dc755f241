import LoxCompiler.Proofs.Scanning.Lexicon

/-! # The reference tokenization

What the items of a source have to be, said by its lexemes alone: no state, no fuel and no cursor.
There is one such list for every source, and the automaton scans it.
-/

namespace LoxCompiler

/-! ## Places -/

/-- The place after some bytes: one line more than they have ends of lines, and as many columns as
there are bytes after the last of these. -/
def Position.ofBefore (before : Bytes) : Position :=
  ⟨1 + before.count (byteOf '\n'), (before.reverse.takeWhile (· != byteOf '\n')).length⟩

theorem Position.after_ofBefore (before : Bytes) (b : UInt8) :
    (ofBefore before).after b = ofBefore (before ++ [b]) := by
  by_cases h : b = byteOf '\n'
  · subst h
    simp [after, ofBefore, Nat.add_assoc]
  · simp [after, ofBefore, h]

/-- The cursor between two parts of a source. -/
def Cursor.between (before rest : Bytes) : Cursor := ⟨rest, before.length, .ofBefore before⟩

theorem Cursor.skip_between (before text rest : Bytes) :
    (between before (text ++ rest)).skip text.length = between (before ++ text) rest := by
  induction text generalizing before with
  | nil => rw [List.append_nil, List.nil_append, List.length_nil, skip]
  | cons b text ih =>
      have hstep : (between before (b :: text ++ rest)).step =
          between (before ++ [b]) (text ++ rest) := by
        simp [step, between, Position.after_ofBefore]
      rw [List.length_cons, skip, hstep, ih, List.append_assoc, List.singleton_append]

/-! ## Tokenizations -/

/-- What a lexeme stands for, if anything: a token with the bytes it is written with, or an error
at its first byte. -/
def Lexeme.items (before text : Bytes) : Lexeme → List (Scanned Bytes)
  | .blank => []
  | .token kind =>
      [.ok ⟨kind, .ofBefore before, ⟨before.length, (before ++ text).length⟩, text⟩]
  | .malformed cause => [.error ⟨cause, .ofBefore before⟩]

/-- The end of the input as an item, after all bytes of a source. -/
def Scanned.ending (source : Bytes) : Scanned Bytes :=
  .ok (.endAt (.ofBefore source) source.length)

/-- After some bytes of a source, the rest of it is some items and the end of the input. -/
inductive Tokenized : Bytes → Bytes → List (Scanned Bytes) → Prop
  | finish {before} : Tokenized before [] [.ending before]
  | lexeme {before first more rest lexeme items} :
      Lexeme.At first (more ++ rest) lexeme more.length →
      Tokenized (before ++ first :: more) rest items →
      Tokenized before (first :: (more ++ rest)) (lexeme.items before (first :: more) ++ items)

namespace Lexeme

variable {first : UInt8} {rest : Bytes} {lexeme lexeme' : Lexeme} {n n' : Nat}

theorem written_slash : Written (.operator .divide) [byteOf '/'] := .symbol (by decide +kernel)

/-- Where no token stands, there is no slash. -/
theorem ne_slash_of_noToken (h : NoToken (first :: rest)) : first ≠ byteOf '/' := by
  rintro rfl
  exact h [byteOf '/'] _ (List.cons_prefix_cons.mpr ⟨rfl, List.nil_prefix⟩) written_slash

/-- No token stands at a quote that is not closed. -/
theorem noToken_of_unterminated (h : byteOf '"' ∉ rest) : NoToken (byteOf '"' :: rest) := by
  intro text kind hprefix hwritten
  obtain ⟨b, more, rfl⟩ := hwritten.exists_cons
  obtain ⟨rfl, hmore⟩ := List.cons_prefix_cons.mp hprefix
  obtain ⟨contents, -, rfl, -⟩ := hwritten.of_quote
  exact h (hmore.subset (by simp))

namespace At

theorem of_isSpace (h : At first rest lexeme n) (hspace : isSpace first = true) :
    lexeme = .blank ∧ n = 0 := by
  cases h with
  | space _ => exact ⟨rfl, rfl⟩
  | comment hfirst _ _ _ => exact absurd (hfirst ▸ hspace) (by decide)
  | token _ _ _ hnot _ => exact absurd hspace (by simp [hnot])
  | unexpected hnot _ _ => exact absurd hspace (by simp [hnot])
  | unterminated hfirst _ => exact absurd (hfirst ▸ hspace) (by decide)

/-- A comment goes up to the end of its line. -/
theorem of_comment {text after : Bytes} (h : At (byteOf '/') (byteOf '/' :: text ++ after) lexeme n)
    (htext : byteOf '\n' ∉ text) (hafter : ∀ b ∈ after.head?, b = byteOf '\n') :
    lexeme = .blank ∧ n = 1 + text.length := by
  -- The text is all bytes of the rest that are no end of a line.
  have htake {text after : Bytes} (htext : byteOf '\n' ∉ text)
      (hafter : ∀ b ∈ after.head?, b = byteOf '\n') :
      (text ++ after).takeWhile (· != byteOf '\n') = text := by
    have hall : ∀ b ∈ text, (b != byteOf '\n') = true := fun b hb => by
      rw [bne_iff_ne]
      rintro rfl
      exact htext hb
    rw [List.takeWhile_append_of_pos hall]
    cases after with
    | nil => exact List.append_nil _
    | cons b after => simp [hafter b rfl]
  generalize hfirst : byteOf '/' = first at h
  generalize hrest : first :: text ++ after = rest at h
  cases h with
  | space hspace => exact absurd (hfirst ▸ hspace) (by decide)
  | @comment text' after' _ hrest' htext' hafter' =>
      have hsame : text ++ after = text' ++ after' := by
        rw [hrest'] at hrest
        exact List.tail_eq_of_cons_eq hrest
      refine ⟨rfl, ?_⟩
      rw [← htake htext hafter, hsame, htake htext' hafter']
  | token _ _ _ _ hnot =>
      refine absurd ?_ hnot
      rw [← hrest, ← hfirst]
      exact List.prefix_append [_, _] (text ++ after)
  | unexpected _ _ hno => exact absurd hfirst.symm (ne_slash_of_noToken hno)
  | unterminated hquote _ => exact absurd (hfirst.trans hquote) (by decide)

/-- The longest token at a place is what stands there. -/
theorem of_written {kind : TokenKind Bytes} {more after : Bytes}
    (h : At first (more ++ after) lexeme n) (hwritten : Written kind (first :: more))
    (hlongest : AtMost (first :: (more ++ after)) (more.length + 1))
    (hspace : isSpace first = false) (hcomment : ¬ StartsComment (first :: (more ++ after))) :
    lexeme = .token kind ∧ n = more.length := by
  have hprefix : first :: more <+: first :: (more ++ after) :=
    List.cons_prefix_cons.mpr ⟨rfl, List.prefix_append _ _⟩
  generalize hrest : more ++ after = rest at h
  cases h with
  | space h => exact absurd h (by simp [hspace])
  | @comment text _ hfirst hrest' _ _ =>
      refine absurd ?_ hcomment
      rw [hrest, hrest', hfirst]
      exact List.prefix_append _ _
  | @token _ more' after' hrest' hwritten' hlongest' _ _ =>
      have hprefix' : first :: more' <+: first :: (more ++ after) := by
        rw [hrest, hrest']
        exact List.cons_prefix_cons.mpr ⟨rfl, List.prefix_append _ _⟩
      have hle : more'.length ≤ more.length :=
        Nat.le_of_succ_le_succ (hlongest _ _ hprefix' hwritten')
      have hge : more.length ≤ more'.length :=
        Nat.le_of_succ_le_succ (hlongest' _ _ (hrest ▸ hprefix) hwritten)
      have hlength := Nat.le_antisymm hle hge
      obtain rfl : more' = more := (List.append_inj (hrest'.symm.trans hrest.symm) hlength).1
      exact ⟨congrArg _ (hwritten'.unique hwritten), rfl⟩
  | unexpected _ _ hno => exact absurd hwritten (hno _ _ (hrest ▸ hprefix))
  | unterminated hquote hnone =>
      subst hquote
      exact absurd hwritten (noToken_of_unterminated hnone _ _ (hrest ▸ hprefix))

/-- Where no token and no blank stands, something is malformed. -/
theorem of_noToken (h : At first rest lexeme n) (hspace : isSpace first = false)
    (hno : NoToken (first :: rest)) :
    (first ≠ byteOf '"' ∧ lexeme = .malformed (.unexpected first) ∧ n = 0) ∨
      (first = byteOf '"' ∧ lexeme = .malformed .unterminatedString ∧ n = rest.length) := by
  cases h with
  | space h => exact absurd h (by simp [hspace])
  | comment hfirst _ _ _ => exact absurd hfirst (ne_slash_of_noToken hno)
  | token hrest hwritten _ _ _ =>
      refine absurd hwritten (hno _ _ ?_)
      rw [hrest]
      exact List.cons_prefix_cons.mpr ⟨rfl, List.prefix_append _ _⟩
  | unexpected _ hquote _ => exact .inl ⟨hquote, rfl, rfl⟩
  | unterminated hquote _ => exact .inr ⟨hquote, rfl, rfl⟩

/-- One lexeme stands at a place. -/
theorem unique (h : At first rest lexeme n) (h' : At first rest lexeme' n') :
    lexeme = lexeme' ∧ n = n' := by
  cases h with
  | space hspace => exact (h'.of_isSpace hspace).imp Eq.symm Eq.symm
  | comment hfirst hrest htext hafter =>
      subst hfirst hrest
      exact (h'.of_comment htext hafter).imp Eq.symm Eq.symm
  | token hrest hwritten hlongest hspace hcomment =>
      subst hrest
      exact (h'.of_written hwritten hlongest hspace hcomment).imp Eq.symm Eq.symm
  | unexpected hspace hquote hno =>
      rcases h'.of_noToken hspace hno with ⟨-, rfl, rfl⟩ | ⟨hquote', -, -⟩
      · exact ⟨rfl, rfl⟩
      · exact absurd hquote' hquote
  | unterminated hquote hnone =>
      subst hquote
      rcases h'.of_noToken (by decide) (noToken_of_unterminated hnone) with ⟨hquote', -⟩ | ⟨-, rfl, rfl⟩
      · exact absurd rfl hquote'
      · exact ⟨rfl, rfl⟩

theorem exists_written {kind : TokenKind Bytes} (h : At first rest (.token kind) n) :
    ∃ text, Written kind text := by
  cases h with
  | token _ hwritten _ _ _ => exact ⟨_, hwritten⟩

/-- A lexeme has no more bytes than there are. -/
theorem le_length (h : At first rest lexeme n) : n ≤ rest.length := by
  cases h with
  | space _ => exact Nat.zero_le _
  | comment _ hrest _ _ => simp [hrest, Nat.add_comm]
  | token hrest _ _ _ _ => simp [hrest]
  | unexpected _ _ _ => exact Nat.zero_le _
  | unterminated _ _ => exact Nat.le_refl _

end At

end Lexeme

namespace Tokenized

variable {before rest : Bytes} {items items' : List (Scanned Bytes)}

/-- Reading gives a tokenization. -/
theorem readOnto (fuel : Nat) (before rest : Bytes) (hfuel : rest.length ≤ fuel) :
    Tokenized before rest (Scanned.readOnto fuel [] (.between before rest)).reverse := by
  induction fuel generalizing before rest with
  | zero =>
      obtain rfl : rest = [] := List.eq_nil_of_length_eq_zero (Nat.le_zero.mp hfuel)
      exact .finish
  | succ fuel ih =>
      cases rest with
      | nil =>
          rw [Scanned.readOnto_of_rest_eq_nil rfl]
          exact .finish
      | cons first bytes =>
          have hat := Lexeme.at_read first bytes
          rw [Scanned.readOnto_of_rest_eq_cons rfl]
          generalize (Lexeme.read first bytes).1 = lexeme at hat ⊢
          generalize (Lexeme.read first bytes).2 = n at hat ⊢
          obtain ⟨more, rest, rfl, rfl⟩ : ∃ more rest, bytes = more ++ rest ∧ n = more.length :=
            ⟨_, _, (List.take_append_drop n bytes).symm,
              (List.length_take_of_le hat.le_length).symm⟩
          have hskip := Cursor.skip_between before (first :: more) rest
          have hrest := ih (before ++ first :: more) rest (by
            simp only [List.length_cons, List.length_append] at hfuel
            omega)
          rw [List.length_cons, List.cons_append] at hskip
          rw [hskip, List.reverse_append]
          have hitems := Tokenized.lexeme hat hrest
          cases lexeme <;>
            simpa [Scanned.ofLexeme?, Cursor.between, Lexeme.items, Nat.add_assoc] using hitems

/-- A source has one tokenization. -/
theorem unique (h : Tokenized before rest items) (h' : Tokenized before rest items') :
    items = items' := by
  induction h generalizing items' with
  | finish =>
      cases h'
      rfl
  | @lexeme before first more rest lexeme items hat _ ih =>
      generalize hbytes : more ++ rest = bytes at hat h'
      cases h' with
      | @lexeme _ _ more' rest' lexeme' items' hat' hrest' =>
          obtain ⟨rfl, hlength⟩ := hat.unique hat'
          obtain ⟨rfl, rfl⟩ := List.append_inj hbytes hlength
          rw [ih hrest']

theorem ofSource (source : Bytes) : Tokenized [] source (Scanned.ofSource source) :=
  readOnto source.length [] source (Nat.le_refl _)

end Tokenized

/-! ## Where items stand -/

/-- A token stands in a source: it is written with the bytes of its span, which are some, and its
position is that of the first of them. -/
structure Token.StandsIn (source : Bytes) (token : Token Bytes) : Prop where
  nonempty : token.span.start < token.span.stop
  inside : token.span.stop ≤ source.length
  lexeme : token.lexeme = (source.take token.span.stop).drop token.span.start
  position : token.position = .ofBefore (source.take token.span.start)

namespace Scanned

/-- An item other than the end of the input stands in a source: a token over its span, and an error
at some byte. -/
def StandsIn (source : Bytes) : Scanned Bytes → Prop
  | .ok token => token.kind ≠ .endOfInput ∧ token.StandsIn source
  | .error e => ∃ offset < source.length, e.position = .ofBefore (source.take offset)

/-- The span of an item, if it is a token. -/
def span? (item : Scanned Bytes) : Option Span := item.toOption.map Token.span

end Scanned

variable {before rest : Bytes} {items : List (Scanned Bytes)}

theorem Lexeme.standsIn_of_mem_items {first : UInt8} {more : Bytes} {lexeme : Lexeme}
    {item : Scanned Bytes} (hat : At first (more ++ rest) lexeme more.length)
    (h : item ∈ lexeme.items before (first :: more)) :
    item.StandsIn (before ++ first :: (more ++ rest)) := by
  cases lexeme with
  | blank => cases h
  | token kind =>
      obtain rfl := List.mem_singleton.mp h
      obtain ⟨text, hwritten⟩ := hat.exists_written
      have hsplit : before ++ first :: (more ++ rest) = (before ++ first :: more) ++ rest := by simp
      have hprefix : before ++ first :: more <+: before ++ first :: (more ++ rest) := ⟨rest, hsplit.symm⟩
      refine ⟨hwritten.ne_endOfInput, ?_, ?_, ?_, ?_⟩
      · simp
      · exact hprefix.length_le
      · rw [hsplit, List.take_left, List.drop_left]
      · rw [List.take_left]
  | malformed cause =>
      obtain rfl := List.mem_singleton.mp h
      exact ⟨before.length, by simp, by rw [List.take_left]⟩

namespace Tokenized

/-- All items but the last one stand in the source, and the last one is its end. -/
theorem exists_eq_append (h : Tokenized before rest items) :
    ∃ standing, items = standing ++ [.ending (before ++ rest)] ∧
      ∀ item ∈ standing, item.StandsIn (before ++ rest) := by
  induction h with
  | finish => exact ⟨[], by rw [List.append_nil, List.nil_append], by simp⟩
  | @lexeme before first more rest lexeme items hat _ ih =>
      obtain ⟨standing, hitems, hstanding⟩ := ih
      have hsplit : (before ++ first :: more) ++ rest = before ++ first :: (more ++ rest) := by simp
      rw [hsplit] at hitems hstanding
      refine ⟨lexeme.items before (first :: more) ++ standing, by rw [hitems, List.append_assoc], ?_⟩
      intro item hitem
      rcases List.mem_append.mp hitem with hitem | hitem
      · exact Lexeme.standsIn_of_mem_items hat hitem
      · exact hstanding item hitem

/-- Spans start after what is before them. -/
theorem le_start (h : Tokenized before rest items) :
    ∀ span ∈ items.filterMap Scanned.span?, before.length ≤ span.start := by
  induction h with
  | finish => simp [Scanned.span?, Scanned.ending, Token.endAt, Except.toOption]
  | @lexeme before first more rest lexeme items _ _ ih =>
      intro span hspan
      rw [List.filterMap_append, List.mem_append] at hspan
      rcases hspan with hspan | hspan
      · cases lexeme <;>
          simp only [Lexeme.items, Scanned.span?, Except.toOption, List.filterMap_cons,
            List.filterMap_nil, Option.map_some, Option.map_none, List.mem_singleton,
            List.not_mem_nil] at hspan
        rw [hspan]
      · have hle := ih span hspan
        rw [List.length_append] at hle
        exact Nat.le_of_add_right_le hle

/-- Spans follow one another. -/
theorem pairwise_span (h : Tokenized before rest items) :
    (items.filterMap Scanned.span?).Pairwise fun span next => span.stop ≤ next.start := by
  induction h with
  | finish => simp [Scanned.span?, Scanned.ending, Except.toOption]
  | @lexeme before first more rest lexeme items _ hrest ih =>
      rw [List.filterMap_append, List.pairwise_append]
      refine ⟨?_, ih, fun span hspan next hnext => ?_⟩
      · cases lexeme with
        | blank => exact .nil
        | token kind => exact List.pairwise_singleton _ _
        | malformed cause => exact .nil
      · have hle := hrest.le_start next hnext
        cases lexeme <;>
          simp only [Lexeme.items, Scanned.span?, Except.toOption, List.filterMap_cons,
            List.filterMap_nil, Option.map_some, Option.map_none, List.mem_singleton,
            List.not_mem_nil] at hspan
        rw [hspan]
        exact hle

end Tokenized

/-- The automaton scans the one tokenization of a source, and the end of the input again and again
after it. The items before the end are tokens and errors that stand in the source, and the spans of
the tokens follow one another. -/
theorem Automaton.scanMany_tokenized (source : Bytes) : ∃ items,
    (∀ other, Tokenized [] source other ↔ other = items ++ [.ending source]) ∧
    (∀ item ∈ items, item.StandsIn source) ∧
    ((items ++ [.ending source]).filterMap Scanned.span?).Pairwise
      (fun span next => span.stop ≤ next.start) ∧
    ∀ extra, ∃ q, scanMany source (items.length + 1 + extra) (start source) =
      .ok (items ++ List.replicate (extra + 1) (.ending source), q) := by
  have hsource := Tokenized.ofSource source
  obtain ⟨items, hitems, hstanding⟩ := hsource.exists_eq_append
  rw [List.nil_append] at hitems hstanding
  have hlength : (Scanned.ofSource source).length = items.length + 1 := by simp [hitems]
  rw [hitems] at hsource
  refine ⟨items, fun other => ⟨fun h => h.unique hsource, fun h => h ▸ hsource⟩, hstanding,
    hsource.pairwise_span, fun extra => ?_⟩
  have hscan := scanMany_ofSource source extra
  have hend := Cursor.skip_between [] source []
  rw [List.append_nil, List.nil_append] at hend
  have hlast : Except.ok (Scanned.endToken ((Cursor.start source).skip source.length)) =
      Scanned.ending source := congrArg (fun c => Except.ok (Scanned.endToken c)) hend
  rw [hlength, Scanned.ofSourcePast, hitems, hlast, List.append_assoc, List.singleton_append,
    ← List.replicate_succ] at hscan
  exact ⟨_, hscan⟩

end LoxCompiler
