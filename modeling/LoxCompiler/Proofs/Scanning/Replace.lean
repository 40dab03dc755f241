import LoxCompiler.Proofs.Scanning.Seam

/-! # Other identifiers in a source

A source where some identifiers are replaced by another one has the same tokens otherwise, on the same
lines. A lexeme cannot see which identifier comes after it.
-/

namespace LoxCompiler

/-! ## Identifiers -/

/-- An identifier is written as a word that is not reserved. -/
theorem Written.of_identifier {name text : Bytes} (h : Written (.identifier name) text) :
    ∃ first more, text = first :: more ∧ name = text ∧ Lexeme.startsWord first = true ∧
      (∀ b ∈ more, Lexeme.inWord b = true) ∧ Lexeme.ofWord text = .token (.identifier text) := by
  have hsymbols : ∀ entry ∈ symbols, entry.2.mapName (fun _ => ()) ≠ .identifier () := by
    decide +kernel
  have hreserved : ∀ entry ∈ Lexeme.reserved, entry.2.mapName (fun _ => ()) ≠ .identifier () := by
    decide +kernel
  generalize hkind : TokenKind.identifier name = kind at h
  cases h with
  | symbol hmem =>
      subst hkind
      exact absurd rfl (hsymbols _ hmem)
  | @word first more hfirst hmore =>
      cases hlookup : Lexeme.reserved.lookup (first :: more) with
      | none =>
          rw [hlookup, Option.getD_none] at hkind
          cases hkind
          refine ⟨first, more, rfl, rfl, hfirst, hmore, ?_⟩
          rw [Lexeme.ofWord, hlookup, Option.getD_none]
      | some kind =>
          rw [hlookup, Option.getD_some] at hkind
          subst hkind
          obtain ⟨_, _, hsplit, -⟩ := List.lookup_eq_some_iff.mp hlookup
          exact absurd rfl (hreserved _ (hsplit ▸ List.mem_append_right _ List.mem_cons_self))
  | _ => cases hkind

namespace Lexeme

variable {first : UInt8} {more rest rest' : Bytes} {name : Bytes}

theorem ne_newline_of_inWord {b : UInt8} (h : inWord b = true) : b ≠ byteOf '\n' := by
  rintro rfl
  exact absurd h (by decide)

/-- A word has no end of a line. -/
theorem count_newline_of_word (hfirst : startsWord first = true)
    (hmore : ∀ b ∈ more, inWord b = true) : (first :: more).count (byteOf '\n') = 0 := by
  rw [List.count_eq_zero]
  intro hmem
  have hin : inWord first = true := by rw [inWord, hfirst, Bool.true_or]
  rcases List.mem_cons.mp hmem with heq | hmem
  · exact ne_newline_of_inWord hin heq.symm
  · exact ne_newline_of_inWord (hmore _ hmem) rfl

theorem any_inWord_congr (h : glance rest = glance rest') :
    rest.head?.any inWord = rest'.head?.any inWord :=
  any_head?_congr rfl (fun b hb => by rw [inWord, hb]; rfl) h

theorem any_isDigit_congr (h : glance rest = glance rest') :
    rest.head?.any isDigit = rest'.head?.any isDigit :=
  any_head?_congr rfl (fun _ hb => Bool.eq_false_iff.mpr fun hdigit =>
    Bool.false_ne_true ((startsWord_of_isDigit hdigit).symm.trans hb)) h

theorem isSpace_of_startsWord (h : startsWord first = true) : isSpace first = false := by
  by_contra hspace
  simp only [Bool.not_eq_false, isSpace, Bool.or_eq_true, beq_iff_eq] at hspace
  obtain (((rfl | rfl) | rfl) | rfl) | rfl := hspace <;> exact absurd h (by decide)

/-- A word ends where no byte of a word follows. -/
theorem at_word (hfirst : startsWord first = true) (hmore : ∀ b ∈ more, inWord b = true)
    (hnext : rest.head?.any inWord = false) :
    At first (more ++ rest) (ofWord (first :: more)) more.length := by
  have htake := takeWhile_append_eq_iff.mpr ⟨hmore, hnext⟩
  have hat := @at_readWord first (more ++ rest) (isSpace_of_startsWord hfirst) hfirst
  unfold readWord at hat
  rwa [htake] at hat

/-- Where an identifier stands. -/
theorem At.of_identifier (h : At first (more ++ rest) (.token (.identifier name)) more.length) :
    Written (.identifier name) (first :: more) ∧ rest.head?.any inWord = false := by
  have hwritten : Written (.identifier name) (first :: more) := by
    generalize hbytes : more ++ rest = bytes at h
    generalize hlength : more.length = n at h
    cases h with
    | token hrest hwritten _ _ _ =>
        obtain ⟨rfl, -⟩ := List.append_inj (hbytes.trans hrest) hlength
        exact hwritten
  refine ⟨hwritten, ?_⟩
  obtain ⟨_, _, heq, -, hfirst, hmore, -⟩ := hwritten.of_identifier
  cases heq
  have hat := @at_readWord first (more ++ rest) (isSpace_of_startsWord hfirst) hfirst
  exact (takeWhile_append_eq_iff.mp (takeWhile_append_of_length (h.unique hat).2.symm)).2

/-- What can be seen of a word is that it is one. -/
theorem glance_word (hfirst : startsWord first = true) (rest : Bytes) :
    glance (first :: rest) = (byteOf 'a', false) := by
  have hpoint : first ≠ byteOf '.' := by
    rintro rfl
    exact absurd hfirst (by decide)
  simp [glance, hfirst, hpoint]

/-- What can be seen of a lexeme does not depend on the words after it. -/
theorem glance_cons_congr (h : glance rest = glance rest') (first : UInt8) (more : Bytes) :
    glance (first :: (more ++ rest)) = glance (first :: (more ++ rest')) := by
  cases more with
  | nil => simp [glance, any_isDigit_congr h]
  | cons b more => rfl

end Lexeme

/-! ## Replacing identifiers -/

/-- A text where the bytes of some spans are replaced by others. The spans are in order, and the text
starts at some offset. -/
def splice (other : Bytes) : Nat → List Span → Bytes → Bytes
  | _, [], text => text
  | offset, span :: spans, text =>
      text.take (span.start - offset) ++ other ++
        splice other span.stop spans (text.drop (span.stop - offset))

/-- What stands in the first span is replaced. -/
theorem splice_cons {other : Bytes} {start stop : Nat} (text : Bytes)
    (hstop : start + text.length = stop) (spans : List Span) (rest : Bytes) :
    splice other start (⟨start, stop⟩ :: spans) (text ++ rest) =
      other ++ splice other stop spans rest := by
  rw [splice, Nat.sub_self, ← hstop, Nat.add_sub_cancel_left, List.drop_left]
  rfl

/-- Nothing is replaced before the first span. -/
theorem splice_append {other : Bytes} {offset : Nat} {spans : List Span} {text : Bytes}
    (h : ∀ span ∈ spans, offset + text.length ≤ span.start ∧ span.start ≤ span.stop)
    (rest : Bytes) : splice other offset spans (text ++ rest) =
      text ++ splice other (offset + text.length) spans rest := by
  cases spans with
  | nil => rfl
  | cons span spans =>
      obtain ⟨hstart, hstop⟩ := h span List.mem_cons_self
      have htake : span.start - offset = text.length + (span.start - (offset + text.length)) := by
        omega
      have hdrop : span.stop - offset = text.length + (span.stop - (offset + text.length)) := by
        omega
      rw [splice, splice, htake, hdrop, List.take_length_add_append, List.drop_length_add_append,
        List.append_assoc, List.append_assoc, List.append_assoc]

namespace Scanned

/-- The spans of the chosen tokens, which are known by their numbers. -/
def spansOf (chosen : List Symbol) (n : Nat) (items : List (Scanned Bytes)) : List Span :=
  (items.zipIdx n).filterMap fun (item, i) => if ⟨i⟩ ∈ chosen then item.span? else none

/-- The items where the chosen tokens are another identifier. -/
def replaceIn (chosen : List Symbol) (other : Bytes) (n : Nat) (items : List (Scanned Bytes)) :
    List (Scanned Bytes) :=
  (items.zipIdx n).map fun (item, i) =>
    if ⟨i⟩ ∈ chosen then item.map fun token => { token with kind := .identifier other } else item

/-- All chosen tokens are identifiers. -/
def Identifiers (chosen : List Symbol) (n : Nat) (items : List (Scanned Bytes)) : Prop :=
  ∀ item i, (item, i) ∈ items.zipIdx n → ⟨i⟩ ∈ chosen →
    ∃ token name, item = .ok token ∧ token.kind = .identifier name

variable {chosen : List Symbol} {other : Bytes} {n : Nat} {item : Scanned Bytes}
  {items : List (Scanned Bytes)}

theorem spansOf_cons_of_notMem (h : ⟨n⟩ ∉ chosen) :
    spansOf chosen n (item :: items) = spansOf chosen (n + 1) items := by
  simp [spansOf, List.zipIdx_cons, h]

theorem spansOf_cons_of_mem (h : ⟨n⟩ ∈ chosen) (token : Token Bytes) :
    spansOf chosen n (.ok token :: items) = token.span :: spansOf chosen (n + 1) items := by
  simp [spansOf, List.zipIdx_cons, h, span?, Except.toOption]

theorem replaceIn_cons_of_notMem (h : ⟨n⟩ ∉ chosen) :
    replaceIn chosen other n (item :: items) = item :: replaceIn chosen other (n + 1) items := by
  simp [replaceIn, List.zipIdx_cons, h]

theorem replaceIn_cons_of_mem (h : ⟨n⟩ ∈ chosen) (token : Token Bytes) :
    replaceIn chosen other n (.ok token :: items) =
      .ok { token with kind := .identifier other } :: replaceIn chosen other (n + 1) items := by
  simp [replaceIn, List.zipIdx_cons, h, Except.map]

theorem Identifiers.tail (h : Identifiers chosen n (item :: items)) :
    Identifiers chosen (n + 1) items :=
  fun item i hitem => h item i (List.mem_cons_of_mem _ hitem)

end Scanned

/-- A source where the chosen tokens are replaced by an identifier. The tokens are counted from
one. -/
def replaced (source : Bytes) (chosen : List Symbol) (other : Bytes) : Bytes :=
  splice other 0 (Scanned.spansOf chosen 1 (Scanned.ofSource source)) source

namespace Tokenized

variable {before rest other : Bytes} {items : List (Scanned Bytes)} {chosen : List Symbol}

/-- A span does not end before it starts. -/
theorem start_le_stop (h : Tokenized before rest items) :
    ∀ span ∈ items.filterMap Scanned.span?, span.start ≤ span.stop := by
  intro span hspan
  obtain ⟨item, hitem, hsome⟩ := List.mem_filterMap.mp hspan
  obtain ⟨standing, rfl, hstanding⟩ := h.exists_eq_append
  cases item with
  | error e => cases hsome
  | ok token =>
      cases hsome
      rcases List.mem_append.mp hitem with hitem | hitem
      · exact Nat.le_of_lt (hstanding _ hitem).2.nonempty
      · cases List.mem_singleton.mp hitem
        exact Nat.le_refl _

/-- Chosen tokens stand after what is before them. -/
theorem le_start_spansOf (h : Tokenized before rest items) (n : Nat) :
    ∀ span ∈ Scanned.spansOf chosen n items,
      before.length ≤ span.start ∧ span.start ≤ span.stop := by
  intro span hspan
  obtain ⟨⟨item, i⟩, hitem, hsome⟩ := List.mem_filterMap.mp hspan
  dsimp only at hsome
  split at hsome
  · have hmem := List.mem_filterMap.mpr ⟨item, List.fst_mem_of_mem_zipIdx hitem, hsome⟩
    exact ⟨h.le_start span hmem, h.start_le_stop span hmem⟩
  · cases hsome

/-- Where the chosen tokens are replaced by an identifier, the items are the same otherwise. -/
theorem replace (hother : Written (.identifier other) other) (h : Tokenized before rest items)
    (hclean : ∀ e, .error e ∉ items) {n : Nat} (hchosen : Scanned.Identifiers chosen n items)
    {before' : Bytes} (hlines : before'.count (byteOf '\n') = before.count (byteOf '\n')) :
    ∃ items', Tokenized before'
        (splice other before.length (Scanned.spansOf chosen n items) rest) items' ∧
      List.Forall₂ (Scanned.SameKind Eq) (Scanned.replaceIn chosen other n items) items' ∧
      Lexeme.glance (splice other before.length (Scanned.spansOf chosen n items) rest) =
        Lexeme.glance rest := by
  have hline {before before' : Bytes}
      (hlines : before'.count (byteOf '\n') = before.count (byteOf '\n')) :
      (Position.ofBefore before).line = (Position.ofBefore before').line := by
    rw [Position.ofBefore, Position.ofBefore, hlines]
  induction h generalizing n before' with
  | @finish before =>
      have hnot : ⟨n⟩ ∉ chosen := by
        intro hmem
        obtain ⟨token, name, htoken, hkind⟩ := hchosen _ n List.mem_cons_self hmem
        cases htoken
        cases hkind
      have hspans : Scanned.spansOf chosen n [.ending before] = [] := by
        simp [Scanned.spansOf, hnot]
      rw [hspans]
      refine ⟨_, .finish, ?_, rfl⟩
      simp only [Scanned.replaceIn, List.zipIdx_cons, List.zipIdx_nil, List.map_cons, List.map_nil,
        if_neg hnot]
      exact .cons ⟨rfl, hline hlines⟩ .nil
  | @lexeme before first more rest lexeme items hat hrest ih =>
      have hclean' : ∀ e, .error e ∉ items := fun e he => hclean e (List.mem_append_right _ he)
      have hlength : (before ++ first :: more).length = before.length + (first :: more).length :=
        List.length_append
      have hsameLines : (before' ++ first :: more).count (byteOf '\n') =
          (before ++ first :: more).count (byteOf '\n') := by
        rw [List.count_append, List.count_append, hlines]
      -- nothing is replaced in a lexeme that is kept
      have hkept (n : Nat) : splice other before.length (Scanned.spansOf chosen n items)
            (first :: (more ++ rest)) =
          first :: (more ++ splice other (before ++ first :: more).length
            (Scanned.spansOf chosen n items) rest) := by
        rw [hlength]
        exact @splice_append other before.length _ (first :: more)
          (fun span hspan => hlength ▸ hrest.le_start_spansOf n span hspan) rest
      cases lexeme with
      | malformed cause =>
          exact (hclean _ (List.mem_append_left _ (List.mem_singleton_self _))).elim
      | blank =>
          obtain ⟨items', hitems, hsame, hglance⟩ := ih hclean' hchosen hsameLines
          have htext : Lexeme.items before (first :: more) .blank ++ items = items := rfl
          rw [htext, hkept]
          exact ⟨_, .lexeme (hat.congr (fun _ h => by cases h) hglance.symm) hitems, hsame,
            Lexeme.glance_cons_congr hglance _ _⟩
      | token kind =>
          by_cases hmem : ⟨n⟩ ∈ chosen
          · obtain ⟨token, name, heq, hkind⟩ := hchosen _ n List.mem_cons_self hmem
            cases heq
            obtain rfl : kind = .identifier name := hkind
            obtain ⟨hwritten, hnext⟩ := hat.of_identifier
            obtain ⟨_, _, hname, -, hfirst, hmore, -⟩ := hwritten.of_identifier
            cases hname
            obtain ⟨o, os, rfl, -, ho, hos, hword⟩ := hother.of_identifier
            have hreplaced : (before' ++ o :: os).count (byteOf '\n') =
                (before ++ first :: more).count (byteOf '\n') := by
              rw [List.count_append, List.count_append, hlines,
                Lexeme.count_newline_of_word ho hos, Lexeme.count_newline_of_word hfirst hmore]
            obtain ⟨items', hitems, hsame, hglance⟩ := ih hclean' hchosen.tail hreplaced
            have htext : Lexeme.items before (first :: more) (.token (.identifier name)) ++ items =
              .ok ⟨.identifier name, .ofBefore before,
                ⟨before.length, (before ++ first :: more).length⟩, first :: more⟩ :: items := rfl
            have hsplice (spans : List Span) : splice (o :: os) before.length
                  (⟨before.length, (before ++ first :: more).length⟩ :: spans)
                  (first :: (more ++ rest)) =
                o :: (os ++ splice (o :: os) (before ++ first :: more).length spans rest) :=
              splice_cons (first :: more) hlength.symm spans rest
            have hat' := Lexeme.at_word ho hos ((Lexeme.any_inWord_congr hglance).trans hnext)
            rw [hword] at hat'
            rw [htext, Scanned.spansOf_cons_of_mem hmem, Scanned.replaceIn_cons_of_mem hmem, hsplice,
              Lexeme.glance_word ho, Lexeme.glance_word hfirst]
            exact ⟨_, .lexeme hat' hitems, .cons ⟨rfl, hline hlines⟩ hsame, rfl⟩
          · obtain ⟨items', hitems, hsame, hglance⟩ := ih hclean' hchosen.tail hsameLines
            have htext : Lexeme.items before (first :: more) (.token kind) ++ items =
              .ok ⟨kind, .ofBefore before, ⟨before.length, (before ++ first :: more).length⟩,
                first :: more⟩ :: items := rfl
            rw [htext, Scanned.spansOf_cons_of_notMem hmem, hkept,
              Scanned.replaceIn_cons_of_notMem hmem]
            exact ⟨_, .lexeme (hat.congr (fun _ h => by cases h) hglance.symm) hitems,
              .cons ⟨rfl, hline hlines⟩ hsame, Lexeme.glance_cons_congr hglance _ _⟩

end Tokenized

/-- The items of a source where the chosen identifiers are replaced by another one. -/
theorem Scanned.ofSource_replaced {source other : Bytes} {chosen : List Symbol}
    (hother : Written (.identifier other) other) (hclean : ∀ e, .error e ∉ ofSource source)
    (hchosen : Identifiers chosen 1 (ofSource source)) :
    List.Forall₂ (SameKind Eq) (replaceIn chosen other 1 (ofSource source))
      (ofSource (replaced source chosen other)) := by
  have hlines : ([] : Bytes).count (byteOf '\n') = ([] : Bytes).count (byteOf '\n') := rfl
  obtain ⟨items, hitems, hsame, -⟩ :=
    (Tokenized.ofSource source).replace hother hclean hchosen hlines
  obtain rfl : items = ofSource (replaced source chosen other) :=
    hitems.unique (Tokenized.ofSource _)
  exact hsame

end LoxCompiler
