import LoxCompiler.Proofs.Scanning.Reference
import LoxCompiler.Proofs.Parallel.Source

/-! # Seams

What a lexeme is depends on its own bytes and on a glance at what follows them: whether the next byte
may stand in a word, is a digit, or extends an operator, and whether a point has a digit after it. So
a source can be continued on a new line, and its items stay what they are.
-/

namespace LoxCompiler

namespace Lexeme

/-- What a lexeme can see of the bytes after it: the first of them, where all bytes that start words
look the same and the end of the source looks like the end of a line, and whether the first one is a
point before a digit. -/
def glance : Bytes → UInt8 × Bool
  | [] => (byteOf '\n', false)
  | b :: rest =>
      (if startsWord b then byteOf 'a' else b, b = byteOf '.' && rest.head?.any isDigit)

variable {more rest rest' : Bytes} {first : UInt8} {lexeme : Lexeme}

/-- A property of bytes that does not tell apart those that start words, and fails at the end of a
line, holds of the next byte if it holds of what a lexeme sees of it. -/
theorem any_head?_eq_glance {p : UInt8 → Bool} (hend : p (byteOf '\n') = false)
    (hword : ∀ b, startsWord b = true → p b = p (byteOf 'a')) (rest : Bytes) :
    rest.head?.any p = p (glance rest).1 := by
  cases rest with
  | nil => exact hend.symm
  | cons b rest =>
      unfold glance
      dsimp only [List.head?_cons, Option.any_some]
      split
      · exact hword b ‹_›
      · rfl

theorem any_head?_congr {p : UInt8 → Bool} (hend : p (byteOf '\n') = false)
    (hword : ∀ b, startsWord b = true → p b = p (byteOf 'a')) (h : glance rest = glance rest') :
    rest.head?.any p = rest'.head?.any p := by
  rw [any_head?_eq_glance hend hword, any_head?_eq_glance hend hword, h]

/-- The longest beginning with a property is all of the first part. -/
theorem takeWhile_append_eq_iff {p : UInt8 → Bool} : (more ++ rest).takeWhile p = more ↔
    (∀ b ∈ more, p b = true) ∧ rest.head?.any p = false := by
  constructor
  · intro h
    have hall : ∀ b ∈ more, p b = true := fun b hb => List.mem_takeWhile_imp (h.symm ▸ hb)
    rw [List.takeWhile_append_of_pos hall, List.append_right_eq_self] at h
    refine ⟨hall, ?_⟩
    rw [any_head?_eq, h]
    rfl
  · rintro ⟨hall, hrest⟩
    rw [any_head?_eq, Bool.not_eq_false', List.isEmpty_iff] at hrest
    rw [List.takeWhile_append_of_pos hall, hrest, List.append_nil]

theorem takeWhile_append_of_length {p : UInt8 → Bool}
    (h : ((more ++ rest).takeWhile p).length = more.length) : (more ++ rest).takeWhile p = more :=
  (List.append_inj (List.takeWhile_append_dropWhile.trans rfl) h).1

/-- The same of the first part with something else after it, if this does not go on with the
property either. -/
theorem takeWhile_append_congr {p : UInt8 → Bool} (h : (more ++ rest).takeWhile p = more)
    (hnext : rest.head?.any p = rest'.head?.any p) : (more ++ rest').takeWhile p = more := by
  rw [takeWhile_append_eq_iff] at h ⊢
  exact ⟨h.1, hnext ▸ h.2⟩

theorem readWord_congr (h : readWord first (more ++ rest) = (lexeme, more.length))
    (hnext : rest.head?.any inWord = rest'.head?.any inWord) :
    readWord first (more ++ rest') = (lexeme, more.length) := by
  unfold readWord at h ⊢
  obtain ⟨rfl, hlength⟩ := Prod.mk.inj h
  have htake := takeWhile_append_of_length hlength
  rw [htake, takeWhile_append_congr htake hnext]

theorem readString_congr (h : readString (more ++ rest) = (lexeme, more.length))
    (hproper : ∀ cause, lexeme ≠ .malformed cause) :
    readString (more ++ rest') = (lexeme, more.length) := by
  have hsplit : (more ++ rest).takeWhile (· != byteOf '"') ++
      (more ++ rest).dropWhile (· != byteOf '"') = more ++ rest := List.takeWhile_append_dropWhile
  have hquote : ∀ b ∈ ((more ++ rest).dropWhile (· != byteOf '"')).head?, b = byteOf '"' := by
    intro b hb
    have hnot := List.head?_dropWhile_not (· != byteOf '"') (more ++ rest)
    rw [hb] at hnot
    simpa using hnot
  have hall : ∀ b ∈ (more ++ rest).takeWhile (· != byteOf '"'), (b != byteOf '"') = true := by
    intro b hb
    exact List.mem_takeWhile_imp (p := (· != byteOf '"')) hb
  unfold readString at h
  dsimp only at h
  generalize (more ++ rest).takeWhile (· != byteOf '"') = contents at h hsplit hall
  generalize (more ++ rest).dropWhile (· != byteOf '"') = after at h hsplit hquote
  cases after with
  | nil => exact (hproper _ (Prod.mk.inj h).1.symm).elim
  | cons quote after =>
      obtain rfl : quote = byteOf '"' := hquote quote rfl
      obtain ⟨rfl, hlength⟩ := Prod.mk.inj h
      rw [List.append_cons] at hsplit
      obtain ⟨rfl, rfl⟩ := List.append_inj hsplit (by simpa using hlength)
      have htake : (contents ++ byteOf '"' :: rest').takeWhile (· != byteOf '"') = contents :=
        takeWhile_append_eq_iff.mpr ⟨hall, rfl⟩
      have hdrop : (contents ++ byteOf '"' :: rest').dropWhile (· != byteOf '"') =
          byteOf '"' :: rest' := by
        rw [List.dropWhile_append_of_pos hall]
        rfl
      unfold readString
      rw [List.append_assoc, List.singleton_append, htake, hdrop, List.length_append]
      rfl

theorem readSlash_congr (h : readSlash (more ++ rest) = (lexeme, more.length))
    (hslash : rest.head?.any (· == byteOf '/') = rest'.head?.any (· == byteOf '/'))
    (hend : rest.head?.any (· != byteOf '\n') = rest'.head?.any (· != byteOf '\n')) :
    readSlash (more ++ rest') = (lexeme, more.length) := by
  cases more with
  | nil =>
      rw [List.nil_append] at h ⊢
      have hnot : rest.head?.any (· == byteOf '/') = false := by
        cases rest with
        | nil => rfl
        | cons second comment =>
            rw [readSlash] at h
            split at h
            · have := (Prod.mk.inj h).2
              simp only [List.length_nil] at this
              omega
            · simpa using ‹¬ second = byteOf '/'›
      have hdivide {bytes : Bytes} (hbytes : bytes.head?.any (· == byteOf '/') = false) :
          readSlash bytes = (.token (.operator .divide), 0) := by
        cases bytes with
        | nil => rfl
        | cons second comment => simpa [readSlash] using hbytes
      rw [hdivide hnot] at h
      rw [hdivide (hslash ▸ hnot)]
      exact h
  | cons second text =>
      rw [List.cons_append, readSlash] at h ⊢
      split at h
      · obtain ⟨rfl, hlength⟩ := Prod.mk.inj h
        rw [List.length_cons, Nat.add_comm, Nat.add_right_cancel_iff] at hlength
        have htake := takeWhile_append_of_length hlength
        rw [if_pos ‹_›, takeWhile_append_congr htake hend, List.length_cons, Nat.add_comm]
      · exact absurd (Prod.mk.inj h).2.symm (Nat.succ_ne_zero _)

theorem readSymbol_congr (h : readSymbol first (more ++ rest) = (lexeme, more.length))
    (hequals : rest.head?.any (· == byteOf '=') = rest'.head?.any (· == byteOf '=')) :
    readSymbol first (more ++ rest') = (lexeme, more.length) := by
  have hhead (bytes : Bytes) :
      bytes.head? = some (byteOf '=') ↔ bytes.head?.any (· == byteOf '=') = true := by
    cases bytes <;> simp
  unfold readSymbol at h ⊢
  cases more with
  | nil =>
      rw [List.nil_append] at h ⊢
      simp only [hhead, hequals] at h ⊢
      exact h
  | cons b more => exact h

/-- A number has a fraction if a point with a digit after it follows the digits. -/
theorem readNumber_eq (bytes : Bytes) : readNumber first bytes =
    if (glance (bytes.dropWhile isDigit)).2 then
      (.token (.literal (.number (.ofDigits (first :: bytes.takeWhile isDigit)
        ((bytes.dropWhile isDigit).tail.takeWhile isDigit)))),
        (bytes.takeWhile isDigit).length + 1 +
          ((bytes.dropWhile isDigit).tail.takeWhile isDigit).length)
    else
      (.token (.literal (.number (.ofDigits (first :: bytes.takeWhile isDigit) []))),
        (bytes.takeWhile isDigit).length) := by
  unfold readNumber
  dsimp only
  generalize bytes.dropWhile isDigit = after
  cases after with
  | nil => rfl
  | cons point after =>
      simp only [glance, any_head?_eq]
      rfl

theorem readNumber_congr (h : readNumber first (more ++ rest) = (lexeme, more.length))
    (hdigit : rest.head?.any isDigit = rest'.head?.any isDigit)
    (hpoint : (glance rest).2 = (glance rest').2) :
    readNumber first (more ++ rest') = (lexeme, more.length) := by
  have hdigits : ∀ b ∈ (more ++ rest).takeWhile isDigit, isDigit b = true :=
    fun b hb => List.mem_takeWhile_imp hb
  have hsplit : (more ++ rest).takeWhile isDigit ++ (more ++ rest).dropWhile isDigit =
      more ++ rest := List.takeWhile_append_dropWhile
  rw [readNumber_eq] at h
  generalize hd : (more ++ rest).takeWhile isDigit = digits at h hdigits hsplit
  generalize (more ++ rest).dropWhile isDigit = after at h hsplit
  split at h
  · rename_i hfraction
    obtain ⟨rfl, hlength⟩ := Prod.mk.inj h
    cases after with
    | nil => cases hfraction
    | cons point after =>
        obtain ⟨hpoint, hafter⟩ := Bool.and_eq_true_iff.mp hfraction
        obtain rfl : point = byteOf '.' := of_decide_eq_true hpoint
        have hfractional : after.takeWhile isDigit ++ after.dropWhile isDigit = after :=
          List.takeWhile_append_dropWhile
        have htaken : (after.takeWhile isDigit ++ after.dropWhile isDigit).takeWhile isDigit =
            after.takeWhile isDigit := congrArg _ hfractional
        have hmore : digits ++ byteOf '.' :: after.takeWhile isDigit ++ after.dropWhile isDigit =
            more ++ rest := by
          rw [← hsplit, List.append_assoc, List.cons_append, hfractional]
        obtain ⟨rfl, rfl⟩ :=
          List.append_inj hmore (by simpa [Nat.add_assoc, Nat.add_comm 1] using hlength)
        have htake : (digits ++ byteOf '.' :: (after.takeWhile isDigit ++ rest')).takeWhile isDigit =
            digits := takeWhile_append_eq_iff.mpr ⟨hdigits, rfl⟩
        have hdrop : (digits ++ byteOf '.' :: (after.takeWhile isDigit ++ rest')).dropWhile isDigit =
            byteOf '.' :: (after.takeWhile isDigit ++ rest') := by
          rw [List.dropWhile_append_of_pos hdigits]
          rfl
        have htaken' := takeWhile_append_congr htaken hdigit
        have hglance : (glance (byteOf '.' :: (after.takeWhile isDigit ++ rest'))).2 = true := by
          rw [any_head?_eq] at hafter
          simp only [glance, any_head?_eq, htaken', hafter]
          rfl
        rw [readNumber_eq, List.append_assoc, List.cons_append, htake, hdrop, if_pos hglance]
        simp only [List.tail_cons, htaken', List.length_append, List.length_cons, Nat.add_assoc,
          Nat.add_comm 1]
  · rename_i hfraction
    obtain ⟨rfl, hlength⟩ := Prod.mk.inj h
    obtain ⟨rfl, rfl⟩ := List.append_inj hsplit hlength
    have htake := takeWhile_append_congr hd hdigit
    have hdrop : (digits ++ rest').dropWhile isDigit = rest' := by
      have hsplit' : (digits ++ rest').takeWhile isDigit ++ (digits ++ rest').dropWhile isDigit =
          digits ++ rest' := List.takeWhile_append_dropWhile
      rw [htake] at hsplit'
      exact List.append_cancel_left hsplit'
    rw [readNumber_eq, htake, hdrop, if_neg (hpoint ▸ hfraction)]

/-- A lexeme is what it is whatever follows it, as long as it sees the same. -/
theorem read_congr (h : read first (more ++ rest) = (lexeme, more.length))
    (hproper : ∀ cause, lexeme ≠ .malformed cause) (hglance : glance rest = glance rest') :
    read first (more ++ rest') = (lexeme, more.length) := by
  have hdigit : rest.head?.any isDigit = rest'.head?.any isDigit :=
    any_head?_congr rfl (fun b hb => Bool.eq_false_iff.mpr fun hdigit =>
      Bool.false_ne_true ((startsWord_of_isDigit hdigit).symm.trans hb)) hglance
  have hword : rest.head?.any inWord = rest'.head?.any inWord :=
    any_head?_congr rfl (fun b hb => by rw [inWord, hb]; rfl) hglance
  have hequal {c : UInt8} (hc : startsWord c = false) (hend : c ≠ byteOf '\n') :
      rest.head?.any (· == c) = rest'.head?.any (· == c) := by
    refine any_head?_congr (beq_eq_false_iff_ne.mpr hend.symm) (fun b hb => ?_) hglance
    have hne : b ≠ c := by
      rintro rfl
      exact Bool.false_ne_true (hc.symm.trans hb)
    have hne' : byteOf 'a' ≠ c := by
      rintro rfl
      exact absurd hc (by decide)
    rw [beq_eq_false_iff_ne.mpr hne, beq_eq_false_iff_ne.mpr hne']
  have hline : rest.head?.any (· != byteOf '\n') = rest'.head?.any (· != byteOf '\n') := by
    refine any_head?_congr rfl (fun b hb => ?_) hglance
    have hne : b ≠ byteOf '\n' := by
      rintro rfl
      exact absurd hb (by decide)
    rw [bne_iff_ne.mpr hne]
    rfl
  unfold read at h ⊢
  by_cases hspace : isSpace first = true
  · rw [if_pos hspace] at h ⊢
    exact h
  rw [if_neg hspace] at h ⊢
  by_cases hquote : first = byteOf '"'
  · rw [if_pos hquote] at h ⊢
    exact readString_congr h hproper
  rw [if_neg hquote] at h ⊢
  by_cases hnumber : isDigit first = true
  · rw [if_pos hnumber] at h ⊢
    exact readNumber_congr h hdigit (congrArg Prod.snd hglance)
  rw [if_neg hnumber] at h ⊢
  by_cases hstart : startsWord first = true
  · rw [if_pos hstart] at h ⊢
    exact readWord_congr h hword
  rw [if_neg hstart] at h ⊢
  by_cases hslash : first = byteOf '/'
  · rw [if_pos hslash] at h ⊢
    exact readSlash_congr h (hequal (by decide) (by decide)) hline
  · rw [if_neg hslash] at h ⊢
    exact readSymbol_congr h (hequal (by decide) (by decide))

/-- The lexeme at a place, whatever follows it, as long as it sees the same. -/
theorem At.congr (h : At first (more ++ rest) lexeme more.length)
    (hproper : ∀ cause, lexeme ≠ .malformed cause) (hglance : glance rest = glance rest') :
    At first (more ++ rest') lexeme more.length := by
  obtain ⟨hlexeme, hlength⟩ := h.unique (at_read first (more ++ rest))
  have hread := read_congr (Prod.ext hlexeme.symm hlength.symm) hproper hglance
  have hat := at_read first (more ++ rest')
  rwa [hread] at hat

/-- The end of a source looks like the end of its last line. -/
theorem glance_append_line (rest more : Bytes) :
    glance (rest ++ byteOf '\n' :: more) = glance rest := by
  cases rest with
  | nil => rfl
  | cons b rest =>
      cases rest with
      | nil => rfl
      | cons _ _ => rfl

end Lexeme

/-! ## Sources -/

namespace Tokenized

variable {before rest : Bytes} {items : List (Scanned Bytes)}

/-- After other bytes the rest of a source is the same items on later lines. -/
theorem after (h : Tokenized before rest items) {before' : Bytes} {k : Nat}
    (hlines : before'.count (byteOf '\n') = before.count (byteOf '\n') + k) :
    ∃ items', Tokenized before' rest items' ∧
      List.Forall₂ (Scanned.SameKind fun l l' => l' = l + k) items items' := by
  have hline {before before' : Bytes}
      (hlines : before'.count (byteOf '\n') = before.count (byteOf '\n') + k) :
      (Position.ofBefore before').line = (Position.ofBefore before).line + k := by
    rw [Position.ofBefore, Position.ofBefore, hlines, Nat.add_assoc]
  induction h generalizing before' with
  | finish => exact ⟨_, .finish, .cons ⟨rfl, hline hlines⟩ .nil⟩
  | @lexeme before first more rest lexeme items hat _ ih =>
      have hnext : (before' ++ first :: more).count (byteOf '\n') =
          (before ++ first :: more).count (byteOf '\n') + k := by
        rw [List.count_append, List.count_append, hlines]
        omega
      obtain ⟨items', hitems', hsame⟩ := ih hnext
      refine ⟨_, .lexeme hat hitems', List.rel_append ?_ hsame⟩
      cases lexeme with
      | blank => exact .nil
      | token kind => exact .cons ⟨rfl, hline hlines⟩ .nil
      | malformed cause => exact .cons rfl .nil

/-- A source without a lexical error is continued on a new line. -/
theorem append_line (h : Tokenized before rest items) (hclean : ∀ e, .error e ∉ items)
    {more : Bytes} {later : List (Scanned Bytes)}
    (hlater : Tokenized (before ++ rest ++ [byteOf '\n']) more later) :
    ∃ standing, items = standing ++ [.ending (before ++ rest)] ∧
      Tokenized before (rest ++ byteOf '\n' :: more) (standing ++ later) := by
  induction h with
  | finish =>
      rw [List.append_nil] at hlater ⊢
      exact ⟨[], rfl, @Tokenized.lexeme _ (byteOf '\n') [] _ _ _ (.space rfl) hlater⟩
  | @lexeme before first text rest lexeme items hat _ ih =>
      have hproper : ∀ cause, lexeme ≠ .malformed cause := by
        rintro cause rfl
        exact hclean _ (List.mem_append_left _ (List.mem_singleton_self _))
      have hsplit : before ++ first :: text ++ rest = before ++ first :: (text ++ rest) := by simp
      obtain ⟨standing, hitems, hstanding⟩ := ih
        (fun e he => hclean e (List.mem_append_right _ he)) (hsplit ▸ hlater)
      have hseam := hat.congr hproper (Lexeme.glance_append_line rest more).symm
      have htokenized := Tokenized.lexeme hseam hstanding
      rw [hsplit] at hitems
      refine ⟨lexeme.items before (first :: text) ++ standing, ?_, ?_⟩
      · rw [hitems, List.append_assoc]
      · rwa [List.append_assoc, List.cons_append, List.append_assoc]

end Tokenized

/-- The items of two sources with a line break between: those of the first one without its end, and
those of the second one on later lines. -/
theorem Scanned.ofSource_append_line {source : Bytes} (hclean : ∀ e, .error e ∉ ofSource source)
    (more : Bytes) : ∃ standing later, ofSource source = standing ++ [.ending source] ∧
      ofSource (source ++ byteOf '\n' :: more) = standing ++ later ∧
      List.Forall₂ (SameKind fun l l' => l' = l + (source.count (byteOf '\n') + 1))
        (ofSource more) later := by
  have hlines : (source ++ [byteOf '\n']).count (byteOf '\n') =
      ([] : Bytes).count (byteOf '\n') + (source.count (byteOf '\n') + 1) := by
    simp
  obtain ⟨later, hlater, hsame⟩ := (Tokenized.ofSource more).after hlines
  obtain ⟨standing, hitems, hwhole⟩ :=
    (Tokenized.ofSource source).append_line hclean hlater
  exact ⟨standing, later, hitems, (Tokenized.ofSource _).unique hwhole, hsame⟩

end LoxCompiler
