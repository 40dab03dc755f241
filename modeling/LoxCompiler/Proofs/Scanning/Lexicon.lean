import LoxCompiler.Proofs.Scanning.Automaton

/-! # The lexicon

Which bytes are which token, said without scanning: a symbol, a word, a number or a string. Bytes
are one token at most. The lexeme that is read at the start of some bytes is the longest token
there, if there is any.
-/

namespace LoxCompiler

/-- The symbols of one and of two bytes. -/
def symbols : List (Bytes × TokenKind Bytes) :=
  [(ascii ['('], .openParen), (ascii [')'], .closeParen), (ascii ['{'], .openBrace),
    (ascii ['}'], .closeBrace), (ascii [','], .comma), (ascii ['.'], .dot),
    (ascii [';'], .semicolon), (ascii ['-'], .operator .minus), (ascii ['+'], .operator .plus),
    (ascii ['*'], .operator .times), (ascii ['/'], .operator .divide),
    (ascii ['!'], .operator .not), (ascii ['!', '='], .operator .notEqual),
    (ascii ['='], .operator .assign), (ascii ['=', '='], .operator .equal),
    (ascii ['>'], .operator .greater), (ascii ['>', '='], .operator .greaterEqual),
    (ascii ['<'], .operator .less), (ascii ['<', '='], .operator .lessEqual)]

/-- Some bytes are a token of some kind. -/
inductive Written : TokenKind Bytes → Bytes → Prop
  | symbol {kind text} : (text, kind) ∈ symbols → Written kind text
  /-- A word is reserved as a whole, or it is an identifier. -/
  | word {first more} : Lexeme.startsWord first = true → (∀ b ∈ more, Lexeme.inWord b = true) →
      Written ((Lexeme.reserved.lookup (first :: more)).getD (.identifier (first :: more)))
        (first :: more)
  | integer {digits} : digits ≠ [] → (∀ b ∈ digits, isDigit b = true) →
      Written (.literal (.number (.ofDigits digits []))) digits
  | decimal {digits fraction} : digits ≠ [] → (∀ b ∈ digits, isDigit b = true) →
      fraction ≠ [] → (∀ b ∈ fraction, isDigit b = true) →
      Written (.literal (.number (.ofDigits digits fraction))) (digits ++ byteOf '.' :: fraction)
  | string {contents} : byteOf '"' ∉ contents →
      Written (.literal (.string contents)) (byteOf '"' :: contents ++ [byteOf '"'])

/-- Two slashes start a comment. -/
def StartsComment (bytes : Bytes) : Prop := [byteOf '/', byteOf '/'] <+: bytes

/-- No token at the start of some bytes has more than some number of them. -/
def AtMost (bytes : Bytes) (length : Nat) : Prop :=
  ∀ text kind, text <+: bytes → Written kind text → text.length ≤ length

/-! ## What a token starts with -/

theorem startsWord_of_isDigit {b : UInt8} (h : isDigit b = true) : Lexeme.startsWord b = false := by
  have hle : b.toNat ≤ (byteOf '9').toNat := by
    simp only [isDigit, Bool.and_eq_true, decide_eq_true_eq] at h
    exact UInt8.le_iff_toNat_le.mp h.2
  have hlt (c : UInt8) (hc : (byteOf '9').toNat < c.toNat) : ¬ c ≤ b := fun h =>
    Nat.not_le.mpr hc (Nat.le_trans (UInt8.le_iff_toNat_le.mp h) hle)
  have hne : b ≠ byteOf '_' := by
    rintro rfl
    exact hlt _ (by decide) (UInt8.le_refl _)
  simp [Lexeme.startsWord, isLetter, hlt _ (show (byteOf '9').toNat < (byteOf 'a').toNat by decide),
    hlt _ (show (byteOf '9').toNat < (byteOf 'A').toNat by decide), hne]

/-- No symbol starts with a byte of another class. -/
theorem head_of_mem_symbols {first : UInt8} {more : Bytes} {kind : TokenKind Bytes}
    (h : (first :: more, kind) ∈ symbols) : Lexeme.startsWord first = false ∧
      isDigit first = false ∧ first ≠ byteOf '"' ∧ Lexeme.isSpace first = false := by
  have hall : ∀ entry ∈ symbols, ∀ first ∈ entry.1.head?, Lexeme.startsWord first = false ∧
      isDigit first = false ∧ first ≠ byteOf '"' ∧ Lexeme.isSpace first = false := by
    decide +kernel
  exact hall _ h first rfl

namespace Written

variable {kind kind' : TokenKind Bytes} {first : UInt8} {more text : Bytes}

/-- A token has a first byte, which is that of a symbol, a word, a number or a string. -/
theorem exists_cons (h : Written kind text) : ∃ first more, text = first :: more := by
  cases h with
  | symbol h =>
      have hall : ∀ entry ∈ symbols, entry.1 ≠ [] := by decide +kernel
      exact List.exists_cons_of_ne_nil (hall _ h)
  | word _ _ => exact ⟨_, _, rfl⟩
  | integer h _ => exact List.exists_cons_of_ne_nil h
  | decimal _ _ _ _ => exact List.exists_cons_of_ne_nil (by simp)
  | string _ => exact ⟨_, _, rfl⟩

/-- What starts like a word is a word. -/
theorem of_startsWord (hfirst : Lexeme.startsWord first = true) (h : Written kind (first :: more)) :
    (∀ b ∈ more, Lexeme.inWord b = true) ∧
      kind = (Lexeme.reserved.lookup (first :: more)).getD (.identifier (first :: more)) := by
  have hdigit {digits : Bytes} (h : ∀ b ∈ digits, isDigit b = true) (hmem : first ∈ digits) :
      False := by
    rw [startsWord_of_isDigit (h first hmem)] at hfirst
    cases hfirst
  generalize htext : first :: more = text at h
  cases h with
  | symbol h =>
      rw [← htext] at h
      rw [(head_of_mem_symbols h).1] at hfirst
      cases hfirst
  | word _ hmore =>
      cases htext
      exact ⟨hmore, rfl⟩
  | integer _ hdigits => exact (hdigit hdigits (htext ▸ List.mem_cons_self)).elim
  | decimal hne hdigits _ _ =>
      obtain ⟨digit, rest, rfl⟩ := List.exists_cons_of_ne_nil hne
      cases htext
      exact (hdigit hdigits List.mem_cons_self).elim
  | string _ =>
      cases htext
      exact absurd hfirst (by decide)

/-- What starts like a number is a number. -/
theorem of_isDigit (hfirst : isDigit first = true) (h : Written kind (first :: more)) :
    ((∀ b ∈ more, isDigit b = true) ∧ kind = .literal (.number (.ofDigits (first :: more) []))) ∨
      ∃ digits fraction, more = digits ++ byteOf '.' :: fraction ∧
        (∀ b ∈ digits, isDigit b = true) ∧ fraction ≠ [] ∧ (∀ b ∈ fraction, isDigit b = true) ∧
        kind = .literal (.number (.ofDigits (first :: digits) fraction)) := by
  generalize htext : first :: more = text at h
  cases h with
  | symbol h =>
      rw [← htext] at h
      rw [(head_of_mem_symbols h).2.1] at hfirst
      cases hfirst
  | word hword _ =>
      cases htext
      rw [startsWord_of_isDigit hfirst] at hword
      cases hword
  | integer _ hdigits =>
      cases htext
      exact .inl ⟨fun b hb => hdigits b (List.mem_cons_of_mem _ hb), rfl⟩
  | decimal hne hdigits hfraction hall =>
      obtain ⟨digit, rest, rfl⟩ := List.exists_cons_of_ne_nil hne
      cases htext
      exact .inr ⟨rest, _, rfl, fun b hb => hdigits b (List.mem_cons_of_mem _ hb), hfraction, hall,
        rfl⟩
  | string _ =>
      cases htext
      exact absurd hfirst (by decide)

/-- What starts with a quote ends with the next one. -/
theorem of_quote (h : Written kind (byteOf '"' :: more)) : ∃ contents, byteOf '"' ∉ contents ∧
    more = contents ++ [byteOf '"'] ∧ kind = .literal (.string contents) := by
  generalize htext : byteOf '"' :: more = text at h
  cases h with
  | symbol h =>
      rw [← htext] at h
      exact ((head_of_mem_symbols h).2.2.1 rfl).elim
  | word hword _ =>
      cases htext
      exact absurd hword (by decide)
  | integer _ hdigits =>
      cases htext
      exact absurd (hdigits _ List.mem_cons_self) (by decide)
  | decimal hne hdigits _ _ =>
      obtain ⟨digit, rest, rfl⟩ := List.exists_cons_of_ne_nil hne
      cases htext
      exact absurd (hdigits _ List.mem_cons_self) (by decide)
  | string hcontents =>
      cases htext
      exact ⟨_, hcontents, rfl, rfl⟩

/-- What starts like nothing else is a symbol. -/
theorem mem_symbols (hword : Lexeme.startsWord first = false) (hdigit : isDigit first = false)
    (hquote : first ≠ byteOf '"') (h : Written kind (first :: more)) :
    (first :: more, kind) ∈ symbols := by
  generalize htext : first :: more = text at h
  cases h with
  | symbol h => exact h
  | word hfirst _ =>
      cases htext
      rw [hword] at hfirst
      cases hfirst
  | integer _ hdigits =>
      cases htext
      rw [hdigits _ List.mem_cons_self] at hdigit
      cases hdigit
  | decimal hne hdigits _ _ =>
      obtain ⟨digit, rest, rfl⟩ := List.exists_cons_of_ne_nil hne
      cases htext
      rw [hdigits _ List.mem_cons_self] at hdigit
      cases hdigit
  | string _ =>
      cases htext
      exact (hquote rfl).elim

/-- Digits before a point are all digits before it. -/
theorem eq_of_append_point {digits digits' fraction fraction' : Bytes}
    (hdigits : ∀ b ∈ digits, isDigit b = true) (hdigits' : ∀ b ∈ digits', isDigit b = true)
    (h : digits ++ byteOf '.' :: fraction = digits' ++ byteOf '.' :: fraction') :
    digits = digits' ∧ fraction = fraction' := by
  have hpoint : ¬ isDigit (byteOf '.') = true := by decide
  have htake := congrArg (List.takeWhile isDigit) h
  rw [List.takeWhile_append_of_pos hdigits, List.takeWhile_append_of_pos hdigits',
    List.takeWhile_cons_of_neg hpoint, List.append_nil, List.takeWhile_cons_of_neg hpoint,
    List.append_nil] at htake
  subst htake
  exact ⟨rfl, List.tail_eq_of_cons_eq (List.append_cancel_left h)⟩

/-- Some bytes are one token at most. -/
theorem unique (h : Written kind text) (h' : Written kind' text) : kind = kind' := by
  obtain ⟨first, more, rfl⟩ := h.exists_cons
  cases hword : Lexeme.startsWord first with
  | true => rw [(h.of_startsWord hword).2, (h'.of_startsWord hword).2]
  | false =>
      cases hdigit : isDigit first with
      | true =>
          have hpoint : ¬ isDigit (byteOf '.') = true := by decide
          rcases h.of_isDigit hdigit with ⟨hall, rfl⟩ | ⟨digits, fraction, rfl, hdigits, -, -, rfl⟩ <;>
            rcases h'.of_isDigit hdigit with
              ⟨hall', rfl⟩ | ⟨digits', fraction', heq, hdigits', -, -, rfl⟩
          · rfl
          · exact (hpoint (hall _ (by simp [heq]))).elim
          · exact (hpoint (hall' _ (by simp))).elim
          · obtain ⟨rfl, rfl⟩ := eq_of_append_point hdigits hdigits' heq
            rfl
      | false =>
          by_cases hquote : first = byteOf '"'
          · subst hquote
            obtain ⟨contents, -, rfl, rfl⟩ := h.of_quote
            obtain ⟨contents', -, heq, rfl⟩ := h'.of_quote
            rw [List.append_cancel_right heq]
          · have hall : ∀ entry ∈ symbols, ∀ entry' ∈ symbols, entry.1 = entry'.1 →
                entry.2 = entry'.2 := by decide +kernel
            exact hall _ (h.mem_symbols hword hdigit hquote) _ (h'.mem_symbols hword hdigit hquote)
              rfl

/-- The end of the input is no token that is written. -/
theorem ne_endOfInput (h : Written kind text) : kind ≠ .endOfInput := by
  cases h with
  | symbol h =>
      have hall : ∀ entry ∈ symbols, entry.2 ≠ .endOfInput := by decide +kernel
      exact hall _ h
  | @word first more _ _ =>
      have hall : ∀ entry ∈ Lexeme.reserved, entry.2 ≠ .endOfInput := by decide +kernel
      cases hlookup : Lexeme.reserved.lookup (first :: more) with
      | none => simp
      | some kind =>
          obtain ⟨before, after, hsplit, -⟩ := List.lookup_eq_some_iff.mp hlookup
          exact hall (first :: more, kind) (by rw [hsplit]; simp)
  | integer _ _ => simp
  | decimal _ _ _ _ => simp
  | string _ => simp

end Written

/-! ## The lexeme at the start of some bytes -/

/-- No token stands at the start of some bytes. -/
def NoToken (bytes : Bytes) : Prop := ∀ text kind, text <+: bytes → ¬ Written kind text

/-- What the lexeme at the start of some bytes has to be, and how many bytes after the first one
belong to it. -/
inductive Lexeme.At (first : UInt8) (rest : Bytes) : Lexeme → Nat → Prop
  | space : isSpace first = true → At first rest .blank 0
  | comment {text after} : first = byteOf '/' → rest = byteOf '/' :: text ++ after →
      byteOf '\n' ∉ text → (∀ b ∈ after.head?, b = byteOf '\n') →
      At first rest .blank (1 + text.length)
  | token {kind more after} : rest = more ++ after → Written kind (first :: more) →
      AtMost (first :: rest) (more.length + 1) → isSpace first = false →
      ¬ StartsComment (first :: rest) → At first rest (.token kind) more.length
  | unexpected : isSpace first = false → first ≠ byteOf '"' → NoToken (first :: rest) →
      At first rest (.malformed (.unexpected first)) 0
  | unterminated : first = byteOf '"' → byteOf '"' ∉ rest →
      At first rest (.malformed .unterminatedString) rest.length

/-- A prefix all of whose bytes have a property is within the longest such one. -/
theorem length_le_takeWhile {p : UInt8 → Bool} {text bytes : Bytes} (h : text <+: bytes)
    (hall : ∀ b ∈ text, p b = true) : text.length ≤ (bytes.takeWhile p).length := by
  obtain ⟨after, rfl⟩ := h
  rw [List.takeWhile_append_of_pos hall, List.length_append]
  exact Nat.le_add_right _ _

/-- To bound the tokens at the start of some bytes, only those with the first byte count. -/
theorem atMost_cons {first : UInt8} {rest : Bytes} {length : Nat}
    (h : ∀ more kind, more <+: rest → Written kind (first :: more) → more.length ≤ length) :
    AtMost (first :: rest) (length + 1) := by
  intro text kind hprefix hwritten
  rcases List.prefix_cons_iff.mp hprefix with rfl | ⟨more, rfl, hmore⟩
  · exact Nat.zero_le _
  · exact Nat.succ_le_succ (h more kind hmore hwritten)

namespace Lexeme

variable {first : UInt8} {rest : Bytes}

/-- What starts no comment by its first byte. -/
theorem not_startsComment (h : first ≠ byteOf '/') : ¬ StartsComment (first :: rest) := fun h' =>
  h (List.cons_prefix_cons.mp h').1.symm

theorem at_readWord (hspace : isSpace first = false) (hfirst : startsWord first = true) :
    At first rest (readWord first rest).1 (readWord first rest).2 := by
  have hslash : first ≠ byteOf '/' := by
    rintro rfl
    exact absurd hfirst (by decide)
  exact .token List.takeWhile_append_dropWhile.symm
    (.word hfirst fun b hb => List.mem_takeWhile_imp hb)
    (atMost_cons fun more kind hmore hwritten =>
      length_le_takeWhile hmore (hwritten.of_startsWord hfirst).1) hspace (not_startsComment hslash)

theorem at_readString : At (byteOf '"') rest (readString rest).1 (readString rest).2 := by
  have hsplit : rest.takeWhile (· != byteOf '"') ++ rest.dropWhile (· != byteOf '"') = rest :=
    List.takeWhile_append_dropWhile
  have hcontents : byteOf '"' ∉ rest.takeWhile (· != byteOf '"') := fun h => by
    simpa using List.mem_takeWhile_imp h
  unfold readString
  cases hdrop : rest.dropWhile (· != byteOf '"') with
  | nil =>
      rw [hdrop, List.append_nil] at hsplit
      dsimp only
      rw [hsplit] at hcontents ⊢
      exact .unterminated rfl hcontents
  | cons quote after =>
      obtain rfl : quote = byteOf '"' := by
        have hhead := List.head?_dropWhile_not (· != byteOf '"') rest
        rw [hdrop] at hhead
        simpa using hhead
      rw [hdrop] at hsplit
      dsimp only
      have hsize : (rest.takeWhile (· != byteOf '"')).length + 1 =
          (rest.takeWhile (· != byteOf '"') ++ [byteOf '"']).length := by
        rw [List.length_append, List.length_singleton]
      rw [hsize]
      refine .token (by rw [List.append_assoc]; exact hsplit.symm) (.string hcontents)
        (atMost_cons fun more kind hmore hwritten => ?_) (by decide) (not_startsComment (by decide))
      obtain ⟨contents, hquote, rfl, -⟩ := hwritten.of_quote
      have hle : contents.length ≤ (rest.takeWhile (· != byteOf '"')).length :=
        length_le_takeWhile ((List.prefix_append _ _).trans hmore) fun b hb => by
          rw [bne_iff_ne]
          rintro rfl
          exact hquote hb
      simpa using hle

/-- The digits before a point are those at the start. -/
theorem dropWhile_of_point_prefix {digits fraction bytes : Bytes}
    (hdigits : ∀ b ∈ digits, isDigit b = true) (h : digits ++ byteOf '.' :: fraction <+: bytes) :
    bytes.takeWhile isDigit = digits ∧
      ∃ after, bytes.dropWhile isDigit = byteOf '.' :: after ∧ fraction <+: after := by
  have hpoint : ¬ isDigit (byteOf '.') = true := by decide
  obtain ⟨after, rfl⟩ := h
  rw [List.append_assoc, List.cons_append, List.takeWhile_append_of_pos hdigits,
    List.dropWhile_append_of_pos hdigits, List.takeWhile_cons_of_neg hpoint,
    List.dropWhile_cons_of_neg hpoint, List.append_nil]
  exact ⟨rfl, fraction ++ after, rfl, List.prefix_append _ _⟩

theorem at_readNumber (hspace : isSpace first = false) (hfirst : isDigit first = true) :
    At first rest (readNumber first rest).1 (readNumber first rest).2 := by
  have hslash : first ≠ byteOf '/' := by
    rintro rfl
    exact absurd hfirst (by decide)
  have hdigits : ∀ b ∈ rest.takeWhile isDigit, isDigit b = true := fun b hb =>
    List.mem_takeWhile_imp hb
  have hall : ∀ b ∈ first :: rest.takeWhile isDigit, isDigit b = true :=
    List.forall_mem_cons.mpr ⟨hfirst, hdigits⟩
  have hsplit : rest = rest.takeWhile isDigit ++ rest.dropWhile isDigit :=
    List.takeWhile_append_dropWhile.symm
  -- Without digits after a point, every number there is an integer.
  have hwhole (hpoint : ∀ after, rest.dropWhile isDigit = byteOf '.' :: after →
      after.takeWhile isDigit = []) : At first rest
        (.token (.literal (.number (.ofDigits (first :: rest.takeWhile isDigit) []))))
        (rest.takeWhile isDigit).length := by
    refine .token hsplit (.integer (List.cons_ne_nil _ _) hall)
      (atMost_cons fun more kind hmore hwritten => ?_) hspace (not_startsComment hslash)
    rcases hwritten.of_isDigit hfirst with ⟨hmore', -⟩ | ⟨digits, fraction, rfl, hd, hne, hf, -⟩
    · exact length_le_takeWhile hmore hmore'
    · obtain ⟨-, after, hdrop, hprefix⟩ := dropWhile_of_point_prefix hd hmore
      have hle := length_le_takeWhile hprefix hf
      rw [hpoint after hdrop] at hle
      exact (hne (List.eq_nil_of_length_eq_zero (Nat.le_zero.mp hle))).elim
  unfold readNumber
  cases hdrop : rest.dropWhile isDigit with
  | nil => exact hwhole fun after h => by simp [hdrop] at h
  | cons point after =>
      dsimp only
      split
      · rename_i hfraction
        simp only [Bool.and_eq_true, decide_eq_true_eq, Bool.not_eq_true', List.isEmpty_eq_false_iff]
          at hfraction
        obtain ⟨rfl, hne⟩ := hfraction
        have hlength : (rest.takeWhile isDigit).length + 1 + (after.takeWhile isDigit).length =
            (rest.takeWhile isDigit ++ byteOf '.' :: after.takeWhile isDigit).length := by
          rw [List.length_append, List.length_cons]
          omega
        have hrest : rest = (rest.takeWhile isDigit ++ byteOf '.' :: after.takeWhile isDigit) ++
            after.dropWhile isDigit := by
          rw [List.append_assoc, List.cons_append, List.takeWhile_append_dropWhile, ← hdrop, ← hsplit]
        rw [hlength]
        refine .token hrest (.decimal (List.cons_ne_nil _ _) hall hne fun b hb =>
          List.mem_takeWhile_imp hb) (atMost_cons fun more kind hmore hwritten => ?_) hspace
          (not_startsComment hslash)
        rw [← hlength]
        rcases hwritten.of_isDigit hfirst with ⟨hmore', -⟩ | ⟨digits, fraction, rfl, hd, -, hf, -⟩
        · have hle := length_le_takeWhile hmore hmore'
          omega
        · obtain ⟨htake, after', hdrop', hprefix⟩ := dropWhile_of_point_prefix hd hmore
          obtain rfl : after = after' := List.tail_eq_of_cons_eq (hdrop.symm.trans hdrop')
          have hle := length_le_takeWhile hprefix hf
          rw [htake, List.length_append, List.length_cons]
          omega
      · rename_i hfraction
        refine hwhole fun after' h => ?_
        obtain ⟨rfl, rfl⟩ := List.cons_eq_cons.mp (hdrop.symm.trans h)
        simpa using hfraction

/-- A token of one byte is what stands there if no longer one does. -/
theorem At.single {kind : TokenKind Bytes} (hwritten : Written kind [first])
    (hlongest : AtMost (first :: rest) 1) (hspace : isSpace first = false)
    (hcomment : ¬ StartsComment (first :: rest)) : At first rest (.token kind) 0 :=
  @At.token _ _ _ [] rest rfl hwritten hlongest hspace hcomment

theorem at_readSlash : At (byteOf '/') rest (readSlash rest).1 (readSlash rest).2 := by
  have hsize : ∀ entry ∈ symbols, entry.1.head? = some (byteOf '/') → entry.1.length = 1 := by
    decide +kernel
  have hdivide (h : rest.head? ≠ some (byteOf '/')) :
      At (byteOf '/') rest (.token (.operator .divide)) 0 := by
    refine .single (.symbol (by decide +kernel)) (atMost_cons fun more kind hmore hwritten => ?_)
      (by decide) fun hcomment => ?_
    · have h := hsize _ (hwritten.mem_symbols (by decide) (by decide) (by decide)) rfl
      exact Nat.le_of_succ_le_succ (Nat.le_of_eq h)
    · obtain ⟨after, hafter⟩ := (List.cons_prefix_cons.mp hcomment).2
      exact h (by rw [← hafter]; rfl)
  cases rest with
  | nil => exact hdivide (by simp)
  | cons second comment =>
      simp only [readSlash]
      split
      · rename_i hsecond
        have hrest : second :: comment = byteOf '/' :: comment.takeWhile (· != byteOf '\n') ++
            comment.dropWhile (· != byteOf '\n') := by
          rw [hsecond, List.cons_append, List.takeWhile_append_dropWhile]
        refine .comment rfl hrest (fun h => ?_) fun b hb => ?_
        · simpa using List.mem_takeWhile_imp h
        · have hhead := List.head?_dropWhile_not (· != byteOf '\n') comment
          rw [Option.mem_def.mp hb] at hhead
          simpa using hhead
      · rename_i hsecond
        exact hdivide (by simpa using hsecond)

theorem at_readSymbol (hspace : isSpace first = false) (hquote : first ≠ byteOf '"')
    (hdigit : isDigit first = false) (hword : startsWord first = false)
    (hslash : first ≠ byteOf '/') :
    At first rest (readSymbol first rest).1 (readSymbol first rest).2 := by
  have hsymbol {more : Bytes} {kind} (h : Written kind (first :: more)) :
      (first :: more, kind) ∈ symbols := h.mem_symbols hword hdigit hquote
  have hentry {α : Type} {b : UInt8} {entries : List (UInt8 × α)} {value : α}
      (h : entries.lookup b = some value) : (b, value) ∈ entries := by
    obtain ⟨before, after, hsplit, -⟩ := List.lookup_eq_some_iff.mp h
    rw [hsplit]
    simp
  unfold readSymbol
  cases hsingle : single.lookup first with
  | some kind =>
      have hall : ∀ entry ∈ single, ([entry.1], entry.2) ∈ symbols ∧
          ∀ symbol ∈ symbols, symbol.1.head? = some entry.1 → symbol.1.length = 1 := by
        decide +kernel
      obtain ⟨hmem, hsize⟩ := hall _ (hentry hsingle)
      exact At.single (.symbol hmem)
        (atMost_cons fun more kind hmore hwritten =>
          Nat.le_of_succ_le_succ (Nat.le_of_eq (hsize _ (hsymbol hwritten) rfl)))
        hspace (not_startsComment hslash)
  | none =>
      cases hextensible : extensible.lookup first with
      | none =>
          have hall : ∀ symbol ∈ symbols, ∀ b ∈ symbol.1.head?, b = byteOf '/' ∨
              single.lookup b ≠ none ∨ extensible.lookup b ≠ none := by decide +kernel
          refine .unexpected hspace hquote fun text kind hprefix hwritten => ?_
          obtain ⟨b, more, rfl⟩ := hwritten.exists_cons
          obtain ⟨rfl, -⟩ := List.cons_prefix_cons.mp hprefix
          rcases hall _ (hsymbol hwritten) b rfl with h | h | h
          · exact hslash h
          · exact h hsingle
          · exact h hextensible
      | some ops =>
          obtain ⟨short, long⟩ := ops
          have hall : ∀ entry ∈ extensible, ([entry.1], .operator entry.2.1) ∈ symbols ∧
              ([entry.1, byteOf '='], .operator entry.2.2) ∈ symbols ∧
              ∀ symbol ∈ symbols, symbol.1.head? = some entry.1 →
                symbol.1 = [entry.1] ∨ symbol.1 = [entry.1, byteOf '='] := by
            decide +kernel
          obtain ⟨hshort, hlong, hsize⟩ := hall _ (hentry hextensible)
          dsimp only
          split
          · rename_i hequals
            obtain ⟨after, rfl⟩ := List.head?_eq_some_iff.mp hequals
            refine @At.token _ _ _ [byteOf '='] after rfl (.symbol hlong)
              (atMost_cons fun more kind hmore hwritten => ?_) hspace (not_startsComment hslash)
            rcases hsize _ (hsymbol hwritten) rfl with h | h
            · rw [List.tail_eq_of_cons_eq h]
              exact Nat.zero_le _
            · exact Nat.le_of_eq (congrArg List.length (List.tail_eq_of_cons_eq h))
          · rename_i hequals
            refine At.single (.symbol hshort)
              (atMost_cons fun more kind hmore hwritten => ?_) hspace (not_startsComment hslash)
            rcases hsize _ (hsymbol hwritten) rfl with h | h
            · exact Nat.le_of_eq (congrArg List.length (List.tail_eq_of_cons_eq h))
            · rw [List.tail_eq_of_cons_eq h] at hmore
              obtain ⟨after, rfl⟩ := hmore
              exact (hequals rfl).elim

/-- The lexeme that is read is the one that has to stand there. -/
theorem at_read (first : UInt8) (rest : Bytes) :
    At first rest (read first rest).1 (read first rest).2 := by
  unfold read
  split
  · exact .space ‹_›
  rename_i hspace
  rw [Bool.not_eq_true] at hspace
  split
  · rename_i hquote
    rw [hquote]
    exact at_readString
  rename_i hquote
  split
  · exact at_readNumber hspace ‹_›
  rename_i hdigit
  rw [Bool.not_eq_true] at hdigit
  split
  · exact at_readWord hspace ‹_›
  rename_i hword
  rw [Bool.not_eq_true] at hword
  split
  · rename_i hslash
    rw [hslash]
    exact at_readSlash
  · exact at_readSymbol hspace hquote hdigit hword ‹_›

end Lexeme

end LoxCompiler
