import Mathlib.Data.List.TakeWhile
import LoxCompiler.Token.Automaton

/-! # The automaton scans lexemes

The automaton never faults, always ends, and gives the items of `Scanned.ofSource` one after the
other, with the end of the input again and again after them. The steps it takes without giving
anything are collected by the lexeme they belong to.
-/

namespace LoxCompiler

/-! ## Leading bytes -/

section Leading

variable (p : UInt8 → Bool) (bytes : Bytes)

theorem take_length_takeWhile :
    bytes.take (bytes.takeWhile p).length = bytes.takeWhile p := by
  have htake : bytes.takeWhile p <+: bytes := List.takeWhile_prefix p
  exact (List.prefix_iff_eq_take.mp htake).symm

theorem drop_length_takeWhile :
    bytes.drop (bytes.takeWhile p).length = bytes.dropWhile p := by
  have hsplit := calc
    bytes.takeWhile p ++ bytes.drop (bytes.takeWhile p).length
      = bytes.take (bytes.takeWhile p).length ++ bytes.drop (bytes.takeWhile p).length := by
        rw [take_length_takeWhile]
    _ = bytes := List.take_append_drop _ bytes
    _ = bytes.takeWhile p ++ bytes.dropWhile p := List.takeWhile_append_dropWhile.symm
  exact List.append_cancel_left hsplit

theorem length_takeWhile_le : (bytes.takeWhile p).length ≤ bytes.length :=
  List.IsPrefix.length_le <| List.takeWhile_prefix p

theorem any_head?_eq : bytes.head?.any p = !(bytes.takeWhile p).isEmpty := by
  cases bytes with
  | nil => rfl
  | cons b bytes => cases h : p b <;> simp [h]

end Leading

/-! ## Cursors -/

namespace Cursor

/-- A cursor stands inside of a source, or at its end. -/
structure Within (source : Bytes) (c : Cursor) : Prop where
  offset : c.offset ≤ source.length
  rest : c.rest = source.drop c.offset

variable {source : Bytes} {c : Cursor}

theorem within_start (source : Bytes) : (start source).Within source := ⟨Nat.zero_le _, rfl⟩

theorem peek_eq_head? (c : Cursor) : c.peek = c.rest.head? := by
  rw [peek, List.head?_eq_getElem?]

theorem step_cons {b : UInt8} {rest : Bytes} (h : c.rest = b :: rest) :
    c.step = ⟨rest, c.offset + 1, c.position.after b⟩ := by
  rw [step, h]

theorem peek_step {b : UInt8} {rest : Bytes} (h : c.rest = b :: rest) :
    c.step.peek = rest.head? := by
  rw [step_cons h, peek_eq_head?]

theorem offset_step {b : UInt8} (h : c.peek = some b) : c.step.offset = c.offset + 1 := by
  rw [peek_eq_head?, List.head?_eq_some_iff] at h
  obtain ⟨rest, hrest⟩ := h
  rw [step_cons hrest]

theorem Within.step (h : c.Within source) : c.step.Within source := by
  cases hrest : c.rest with
  | nil =>
      rw [Cursor.step, hrest]
      exact h
  | cons b rest =>
      have hdrop : source.drop c.offset = b :: rest := by rw [← h.rest, hrest]
      rw [step_cons hrest]
      constructor
      · have hlength := congrArg List.length hdrop
        simp only [List.length_drop, List.length_cons] at hlength
        exact (by omega : c.offset + 1 ≤ source.length)
      · exact (show rest = source.drop (c.offset + 1) by rw [← List.tail_drop, hdrop, List.tail_cons])

theorem Within.skip (h : c.Within source) (n : Nat) : (c.skip n).Within source := by
  induction n generalizing c with
  | zero => exact h
  | succ n ih => exact ih h.step

theorem skip_add (m n : Nat) (c : Cursor) : c.skip (m + n) = (c.skip m).skip n := by
  induction m generalizing c with
  | zero => rw [Nat.zero_add, skip]
  | succ m ih => rw [Nat.succ_add, skip, skip, ih]

theorem skip_succ (n : Nat) (c : Cursor) : c.skip (n + 1) = (c.skip n).step := skip_add n 1 c

theorem offset_skip {n : Nat} (h : n ≤ c.rest.length) : (c.skip n).offset = c.offset + n := by
  induction n generalizing c with
  | zero => rfl
  | succ n ih =>
      cases hrest : c.rest with
      | nil => simp [hrest] at h
      | cons b rest =>
          have hn : n ≤ c.step.rest.length := by simpa [hrest] using h
          rw [skip, ih hn, step_cons hrest]
          simp only
          omega

/-- After all bytes of a kind stands another byte, or none. -/
theorem peek_skip_takeWhile {p : UInt8 → Bool} {b : UInt8}
    (h : (c.skip (c.rest.takeWhile p).length).peek = some b) : p b = false := by
  have hhead := List.head?_dropWhile_not p c.rest
  rw [peek_eq_head?, rest_skip, drop_length_takeWhile] at h
  rw [h] at hhead
  exact hhead

theorem skip_of_rest_eq_nil (h : c.rest = []) (n : Nat) : c.skip n = c := by
  induction n with
  | zero => rfl
  | succ n ih => rw [skip, step, h, ih]

end Cursor

namespace Scanned

theorem readOnto_eq_append (fuel : Nat) (items : List (Scanned Bytes)) (c : Cursor) :
    readOnto fuel items c = readOnto fuel [] c ++ items := by
  induction fuel generalizing items c with
  | zero => rfl
  | succ fuel ih =>
      unfold readOnto
      split
      · rfl
      · rename_i first rest _
        dsimp only
        split
        · rename_i item _
          rw [ih (item :: items), ih [item], List.append_assoc]
          rfl
        · exact ih items _

theorem readOnto_of_rest_eq_nil {c : Cursor} (hrest : c.rest = []) (fuel : Nat) :
    readOnto fuel [] c = [.ok (endToken c)] := by
  cases fuel with
  | zero => rfl
  | succ fuel => simp only [readOnto, hrest]

/-- Reading goes on after the next lexeme. -/
theorem readOnto_of_rest_eq_cons {c : Cursor} {first : UInt8} {rest : Bytes}
    (hrest : c.rest = first :: rest) (fuel : Nat) :
    readOnto (fuel + 1) [] c = readOnto fuel [] (c.skip ((Lexeme.read first rest).2 + 1)) ++
      (ofLexeme? c ((Lexeme.read first rest).2 + 1) (Lexeme.read first rest).1).toList := by
  simp only [readOnto, hrest]
  split
  · rename_i item hitem
    rw [readOnto_eq_append, hitem]
    rfl
  · rename_i hitem
    rw [hitem, Option.toList_none, List.append_nil]

theorem length_readOnto_le (fuel : Nat) (c : Cursor) :
    (readOnto fuel [] c).length ≤ fuel + 1 := by
  induction fuel generalizing c with
  | zero => exact Nat.le_refl _
  | succ fuel ih =>
      cases hrest : c.rest with
      | nil =>
          rw [readOnto_of_rest_eq_nil hrest]
          exact Nat.le_add_left _ _
      | cons first rest =>
          rw [readOnto_of_rest_eq_cons hrest, List.length_append]
          exact Nat.add_le_add (ih _) (Option.length_toList_le)

theorem length_readOnto_pos (fuel : Nat) (c : Cursor) : 0 < (readOnto fuel [] c).length := by
  induction fuel generalizing c with
  | zero => exact Nat.succ_pos _
  | succ fuel ih =>
      cases hrest : c.rest with
      | nil =>
          rw [readOnto_of_rest_eq_nil hrest]
          exact Nat.succ_pos _
      | cons first rest =>
          rw [readOnto_of_rest_eq_cons hrest, List.length_append]
          exact Nat.add_pos_left (ih _) _

/-- A source has at most one item more than it has bytes. -/
theorem length_ofSource_le (source : Bytes) : (ofSource source).length ≤ source.length + 1 := by
  rw [ofSource, List.length_reverse]
  exact length_readOnto_le source.length (.start source)

end Scanned

namespace Automaton

variable {source : Bytes} {c : Cursor} {q r : Configuration} {m n : Nat} {item : Scanned Bytes}

/-! ## Parts of the source -/

/-- The bytes that a cursor has gone over can be cut out. -/
theorem cut_skip (h : c.Within source) (hn : n ≤ c.rest.length) :
    cut source c.offset (c.skip n).offset = .ok (c.rest.take n) := by
  have hstop := (h.skip n).offset
  rw [Cursor.offset_skip hn] at hstop ⊢
  rw [cut, if_pos ⟨Nat.le_add_right _ _, hstop⟩, h.rest, Nat.add_sub_cancel_left]

theorem cut_append {text after : Bytes} (h : c.Within source) (hsplit : c.rest = text ++ after) :
    cut source c.offset (c.skip text.length).offset = .ok text := by
  rw [cut_skip h (by rw [hsplit, List.length_append]; omega), hsplit, List.take_left]

/-- A token over the bytes that a cursor has gone over. -/
theorem token_skip (h : c.Within source) (hn : n ≤ c.rest.length) (kind : TokenKind Bytes) :
    some (token source kind c.position c.offset (c.skip n).offset) =
      Scanned.ofLexeme? c n (.token kind) := by
  rw [Cursor.offset_skip hn, token, Scanned.ofLexeme?, h.rest, Nat.add_sub_cancel_left]

/-! ## Runs in parts -/

/-- Some steps lead from one configuration to another, and nothing is given. -/
def Reaches (source : Bytes) (q : Configuration) (n : Nat) (r : Configuration) : Prop :=
  ∀ fuel, run source (n + fuel) q = run source fuel r

/-- Some steps give an item, and end in another configuration. -/
def Gives (source : Bytes) (q : Configuration) (n : Nat) (item : Scanned Bytes)
    (r : Configuration) : Prop :=
  ∀ fuel, run source (n + fuel) q = .ok (item, r)

theorem Reaches.refl (q : Configuration) : Reaches source q 0 q := fun fuel => by
  rw [Nat.zero_add]

theorem Reaches.trans {p : Configuration} (h : Reaches source q m r) (h' : Reaches source r n p) :
    Reaches source q (m + n) p := fun fuel => by
  rw [Nat.add_assoc, h, h']

theorem Reaches.gives {p : Configuration} (h : Reaches source q m r) (h' : Gives source r n item p) :
    Gives source q (m + n) item p := fun fuel => by
  rw [Nat.add_assoc, h, h']

theorem reaches_step {state next : State} (h : visit source c state = .ok (.step next)) :
    Reaches source ⟨state, c⟩ 1 ⟨next, c.step⟩ := fun fuel => by
  rw [Nat.add_comm, run, h]
  rfl

theorem reaches_resume {state next : State} (h : visit source c state = .ok (.resume next)) :
    Reaches source ⟨state, c⟩ 1 ⟨next, c⟩ := fun fuel => by
  rw [Nat.add_comm, run, h]
  rfl

theorem gives_produce {state : State} (h : visit source c state = .ok (.produce item)) :
    Gives source ⟨state, c⟩ 1 item ⟨.root, c.step⟩ := fun fuel => by
  rw [Nat.add_comm, run, h]
  rfl

theorem gives_produceBefore {state : State}
    (h : visit source c state = .ok (.produceBefore item)) :
    Gives source ⟨state, c⟩ 1 item ⟨.root, c⟩ := fun fuel => by
  rw [Nat.add_comm, run, h]
  rfl

/-- A state that consumes all bytes of a kind is left after the last of them. -/
theorem reaches_takeWhile (source : Bytes) {p : UInt8 → Bool} (state : State)
    (hstay : ∀ (c : Cursor) (b : UInt8), c.peek = some b → p b = true →
      visit source c state = .ok (.step state)) (c : Cursor) :
    Reaches source ⟨state, c⟩ (c.rest.takeWhile p).length
      ⟨state, c.skip (c.rest.takeWhile p).length⟩ := by
  induction hrest : c.rest generalizing c with
  | nil => exact .refl _
  | cons b rest ih =>
      rw [List.takeWhile_cons]
      split
      · rename_i hb
        have hstep := reaches_step (hstay c b (by rw [Cursor.peek_eq_head?, hrest, List.head?_cons]) hb)
        have hmore := ih c.step (by rw [Cursor.rest_step, hrest, List.drop_one, List.tail_cons])
        rw [List.length_cons, Nat.add_comm, Cursor.skip_add]
        exact hstep.trans hmore
      · exact .refl _

/-! ## Lexemes -/

/-- The bytes that follow are read as a lexeme: at most three steps for each of its bytes give
what the lexeme stands for, if anything, and end after it. -/
def Follows (source : Bytes) (c : Cursor) (lexeme : Lexeme) (length : Nat) : Prop :=
  ∃ n ≤ 3 * length, length ≤ c.rest.length ∧
    match Scanned.ofLexeme? c length lexeme with
    | some item => Gives source ⟨.root, c⟩ n item ⟨.root, c.skip length⟩
    | none => Reaches source ⟨.root, c⟩ n ⟨.root, c.skip length⟩

theorem Follows.gives {lexeme : Lexeme} {length : Nat}
    (hitem : Scanned.ofLexeme? c length lexeme = some item)
    (hn : n ≤ 3 * length) (hlength : length ≤ c.rest.length)
    (h : Gives source ⟨.root, c⟩ n item ⟨.root, c.skip length⟩) : Follows source c lexeme length :=
  ⟨n, hn, hlength, by rw [hitem]; exact h⟩

theorem follows_token (text : Bytes) {kind : TokenKind Bytes} {after : Bytes} (hwithin : c.Within source)
    (hsplit : c.rest = text ++ after) (hn : n ≤ 3 * text.length)
    (h : Gives source ⟨.root, c⟩ n (token source kind c.position c.offset (c.skip text.length).offset)
      ⟨.root, c.skip text.length⟩) : Follows source c (.token kind) text.length := by
  have hlength : text.length ≤ c.rest.length := by
    rw [hsplit, List.length_append]
    omega
  exact .gives (token_skip hwithin hlength kind).symm hn hlength h

theorem follows_blank {length : Nat} (hn : n ≤ 3 * length) (hlength : length ≤ c.rest.length)
    (h : Reaches source ⟨.root, c⟩ n ⟨.root, c.skip length⟩) : Follows source c .blank length :=
  ⟨n, hn, hlength, h⟩

/-! ## Ends of lexemes -/

section Ends

variable {start : Nat} {text : Bytes}

theorem visitWord_end (position : Position) (hcut : cut source start c.offset = .ok text)
    (hpeek : ∀ b, c.peek = some b → Lexeme.inWord b = false) :
    visit source c (.word start position) = .ok (.produceBefore (token source
      ((Lexeme.reserved.lookup text).getD (.identifier text)) position start c.offset)) := by
  rw [visit, visitWord, endWord, hcut]
  cases h : c.peek with
  | none => rfl
  | some b =>
      dsimp only
      rw [hpeek b h]
      rfl

theorem visitComment_end (source : Bytes) (hpeek : ∀ b, c.peek = some b → b = byteOf '\n') :
    visit source c .comment = .ok (.resume .root) := by
  rw [visit, visitComment]
  cases h : c.peek with
  | none => rfl
  | some b => simp [hpeek b h]

theorem visitString_end (position : Position) (hcut : cut source (start + 1) c.offset = .ok text)
    (hpeek : c.peek = some (byteOf '"')) :
    visit source c (.string start position) =
      .ok (.produce (token source (.literal (.string text)) position start c.step.offset)) := by
  rw [visit, visitString, hpeek, Cursor.offset_step hpeek]
  dsimp only
  rw [if_pos rfl, hcut]
  rfl

/-- A number is left before a byte that is no digit and no point of the number. -/
theorem visitNumber_end (fractional : Bool) {value : Binary64} (position : Position)
    (hcut : cut source start c.offset = .ok text) (hparse : parseNumber text = some value)
    (hdigit : ∀ b, c.peek = some b → isDigit b = false)
    (hpoint : c.peek = some (byteOf '.') → fractional = false → c.peekSecond.any isDigit = false) :
    visit source c (.number start position fractional) = .ok (.produceBefore
      (token source (.literal (.number value)) position start c.offset)) := by
  have hend : endNumber source c start position = .ok (.produceBefore
      (token source (.literal (.number value)) position start c.offset)) := by
    simp [endNumber, hcut, hparse, bind, Except.bind, pure, Except.pure]
  rw [visit, visitNumber, hend]
  cases h : c.peek with
  | none => rfl
  | some b =>
      have hdot : ¬ (b = byteOf '.' && !fractional && c.peekSecond.any isDigit) = true := by
        intro hdot
        simp only [Bool.and_eq_true, decide_eq_true_eq, Bool.not_eq_true'] at hdot
        rw [hpoint (by rw [h, hdot.1.1]) hdot.1.2] at hdot
        exact Bool.false_ne_true hdot.2
      dsimp only
      rw [hdigit b h, if_neg Bool.false_ne_true, if_neg hdot]

/-- Digits stay in a number. -/
theorem visitNumber_digit (start : Nat) (position : Position) (fractional : Bool) (c : Cursor)
    (b : UInt8) (hpeek : c.peek = some b) (hb : isDigit b = true) :
    visit source c (.number start position fractional) =
      .ok (.step (.number start position fractional)) := by
  simp [visit, visitNumber, hpeek, hb]

/-- A point with digits after it belongs to a number that had none. -/
theorem reaches_fraction (source : Bytes) {after : Bytes} (start : Nat) (position : Position)
    (hrest : c.rest = byteOf '.' :: after) (hsecond : c.peekSecond.any isDigit = true) :
    Reaches source ⟨.number start position false, c⟩
      (1 + (after.takeWhile isDigit).length)
      ⟨.number start position true, c.skip (byteOf '.' :: after.takeWhile isDigit).length⟩ := by
  have hpoint : visit source c (.number start position false) =
      .ok (.step (.number start position true)) := by
    rw [visit, visitNumber, Cursor.peek_eq_head?, hrest, List.head?_cons]
    dsimp only
    rw [hsecond]
    rfl
  have hloop := reaches_takeWhile source _ (visitNumber_digit start position true) c.step
  rw [show c.step.rest = after by rw [Cursor.step_cons hrest]] at hloop
  exact (reaches_step hpoint).trans hloop

end Ends

theorem parseNumber_digits {digits : Bytes} (hdigits : digits.all isDigit = true)
    (hne : digits ≠ []) : parseNumber digits = some (.ofDigits digits []) := by
  have hdrop : digits.dropWhile isDigit = [] :=
    List.dropWhile_eq_nil_iff.mpr (List.all_eq_true.mp hdigits)
  rw [parseNumber, hdrop]
  simp [hne]

theorem parseNumber_fraction {digits fractional : Bytes} (hdigits : digits.all isDigit = true)
    (hne : digits ≠ []) (hfractional : fractional.all isDigit = true) :
    parseNumber (digits ++ byteOf '.' :: fractional) = some (.ofDigits digits fractional) := by
  have hall := List.all_eq_true.mp hdigits
  have hpoint : isDigit (byteOf '.') = false := by decide
  have htake : (digits ++ byteOf '.' :: fractional).takeWhile isDigit = digits := by
    rw [List.takeWhile_append_of_pos hall, List.takeWhile_cons_of_neg (by simp [hpoint]),
      List.append_nil]
  have hdrop : (digits ++ byteOf '.' :: fractional).dropWhile isDigit = byteOf '.' :: fractional := by
    rw [List.dropWhile_append_of_pos hall, List.dropWhile_cons_of_neg (by simp [hpoint])]
  rw [parseNumber, hdrop, htake]
  simp [hne, hfractional]

section Read

variable {first : UInt8} {rest : Bytes} (hwithin : c.Within source) (hrest : c.rest = first :: rest)
include hwithin hrest

theorem follows_word (hspace : Lexeme.isSpace first = false) (hquote : first ≠ byteOf '"')
    (hdigit : isDigit first = false) (hword : Lexeme.startsWord first = true) :
    Follows source c (Lexeme.readWord first rest).1 ((Lexeme.readWord first rest).2 + 1) := by
  have htake : c.rest.takeWhile Lexeme.inWord = first :: rest.takeWhile Lexeme.inWord := by
    rw [hrest, List.takeWhile_cons, if_pos (by rw [Lexeme.inWord, hword, Bool.true_or])]
  have hlength := length_takeWhile_le Lexeme.inWord c.rest
  have hroot : visit source c .root = .ok (.resume (.word c.offset c.position)) := by
    simp [visit, visitRoot, Cursor.peek_eq_head?, hrest, hspace, hquote, hdigit, hword]
  have hloop := reaches_takeWhile source (p := Lexeme.inWord)
    (.word c.offset c.position) (fun d b hpeek hb => by simp [visit, visitWord, hpeek, hb]) c
  have hcut := cut_skip hwithin hlength
  rw [take_length_takeWhile] at hcut
  have hend := (reaches_resume hroot).trans hloop |>.gives
    (gives_produceBefore (visitWord_end c.position hcut fun _ => Cursor.peek_skip_takeWhile))
  rw [htake, List.length_cons] at hend hlength
  exact .gives (token_skip hwithin hlength _).symm
    (show 1 + ((rest.takeWhile Lexeme.inWord).length + 1) + 1 ≤
      3 * ((rest.takeWhile Lexeme.inWord).length + 1) by omega) hlength hend

theorem follows_string (hquote : first = byteOf '"') :
    Follows source c (Lexeme.readString rest).1 ((Lexeme.readString rest).2 + 1) := by
  subst hquote
  let p : UInt8 → Bool := (· != byteOf '"')
  have hstep : c.step.rest = rest := by rw [Cursor.step_cons hrest]
  have hoffset : c.step.offset = c.offset + 1 := by rw [Cursor.step_cons hrest]
  have hroot : visit source c .root = .ok (.step (.string c.offset c.position)) := by
    simp [visit, visitRoot, Cursor.peek_eq_head?, hrest,
      show Lexeme.isSpace (byteOf '"') = false from by decide]
  have hloop := reaches_takeWhile source (p := p) (.string c.offset c.position)
    (fun d b hpeek hb => by simp_all [visit, visitString, p]) c.step
  have hcontents := (reaches_step hroot).trans hloop
  have hcut := cut_skip hwithin.step (length_takeWhile_le p c.step.rest)
  have hpeek := (c.step.skip (c.step.rest.takeWhile p).length).peek_eq_head?
  rw [Cursor.rest_skip, drop_length_takeWhile] at hpeek
  rw [take_length_takeWhile, hoffset] at hcut
  rw [hstep] at hcontents hpeek hcut
  unfold Lexeme.readString
  dsimp only
  cases hafter : rest.dropWhile p with
  | nil =>
      rw [hafter, List.head?_nil] at hpeek
      have hend : visit source (c.step.skip (rest.takeWhile p).length) (.string c.offset c.position) =
          .ok (.produceBefore (.error ⟨.unterminatedString, c.position⟩)) := by
        rw [visit, visitString, hpeek]
      exact .gives rfl
        (show 1 + (rest.takeWhile p).length + 1 ≤ 3 * ((rest.takeWhile p).length + 1) by omega)
        (by rw [hrest]; exact Nat.succ_le_succ (length_takeWhile_le p rest))
        (hcontents.gives (gives_produceBefore hend))
  | cons b after =>
      have hquote : b = byteOf '"' := by
        have hb := List.head?_dropWhile_not p rest
        rw [hafter] at hb
        simpa [p] using hb
      rw [hafter, List.head?_cons, hquote] at hpeek
      have hlength : (rest.takeWhile p).length + 1 + 1 ≤ c.rest.length := by
        have h := congrArg List.length (List.takeWhile_append_dropWhile (p := p) (l := rest))
        rw [hafter] at h
        simp only [List.length_append, List.length_cons] at h
        rw [hrest, List.length_cons]
        omega
      refine .gives (token_skip hwithin hlength _).symm
        (show 1 + (rest.takeWhile p).length + 1 ≤ 3 * ((rest.takeWhile p).length + 1 + 1) by omega)
        hlength ?_
      rw [Cursor.skip_succ]
      exact hcontents.gives (gives_produce (visitString_end c.position hcut hpeek))

theorem follows_number (hspace : Lexeme.isSpace first = false) (hquote : first ≠ byteOf '"')
    (hdigit : isDigit first = true) :
    Follows source c (Lexeme.readNumber first rest).1 ((Lexeme.readNumber first rest).2 + 1) := by
  let digits := rest.takeWhile isDigit
  let d := c.skip (first :: digits).length
  have hall : (first :: digits).all isDigit = true := by simp [digits, hdigit]
  have hsplit : c.rest = (first :: digits) ++ rest.dropWhile isDigit := by
    rw [hrest, List.cons_append, List.takeWhile_append_dropWhile]
  have hd : d.rest = rest.dropWhile isDigit := by
    rw [Cursor.rest_skip, hsplit, List.drop_left]
  have hpeek : ∀ b, d.peek = some b → isDigit b = false := by
    intro b hb
    have h := List.head?_dropWhile_not isDigit rest
    rw [← hd, ← Cursor.peek_eq_head?, hb] at h
    exact h
  have hroot : visit source c .root = .ok (.step (.number c.offset c.position false)) := by
    simp [visit, visitRoot, Cursor.peek_eq_head?, hrest, hspace, hquote, hdigit]
  have hdigits : Reaches source ⟨.root, c⟩ (1 + digits.length)
      ⟨.number c.offset c.position false, d⟩ := by
    have hloop := reaches_takeWhile source _
      (visitNumber_digit c.offset c.position false) c.step
    rw [show c.step.rest = rest by rw [Cursor.step_cons hrest]] at hloop
    exact (reaches_step hroot).trans hloop
  -- Without digits after a point, the number ends before the point.
  have hwhole : (d.peek = some (byteOf '.') → d.peekSecond.any isDigit = false) →
      Follows source c (.token (.literal (.number (.ofDigits (first :: digits) []))))
        (digits.length + 1) := by
    intro hpoint
    have hend := visitNumber_end false c.position (cut_append hwithin hsplit)
      (parseNumber_digits hall (List.cons_ne_nil _ _)) hpeek fun h _ => hpoint h
    exact follows_token _ hwithin hsplit (by rw [List.length_cons]; omega)
      (hdigits.gives (gives_produceBefore hend))
  unfold Lexeme.readNumber
  cases hafter : rest.dropWhile isDigit with
  | nil =>
      apply hwhole
      intro h
      simp [Cursor.peek_eq_head?, hd, hafter] at h
  | cons point after =>
      have hsecond : d.peekSecond.any isDigit = !(after.takeWhile isDigit).isEmpty := by
        rw [← any_head?_eq, Cursor.peekSecond, hd, hafter, List.getElem?_cons_succ,
          List.head?_eq_getElem?]
      rw [hafter] at hd hsplit
      dsimp only
      split
      · rename_i hfraction
        simp only [Bool.and_eq_true, decide_eq_true_eq] at hfraction
        obtain ⟨rfl, hsome⟩ := hfraction
        let text := (first :: digits) ++ byteOf '.' :: after.takeWhile isDigit
        have hsplit : c.rest = text ++ after.dropWhile isDigit := by
          rw [hsplit, List.append_assoc, List.cons_append (a := byteOf '.'),
            List.takeWhile_append_dropWhile]
        have hpoint := reaches_fraction source c.offset c.position hd
          (hsecond.trans hsome)
        rw [← Cursor.skip_add, ← List.length_append] at hpoint
        have hdone : ∀ b, (c.skip text.length).peek = some b → isDigit b = false := by
          intro b hb
          have h := List.head?_dropWhile_not isDigit after
          rw [Cursor.peek_eq_head?, Cursor.rest_skip, hsplit, List.drop_left] at hb
          rw [hb] at h
          exact h
        have hend := visitNumber_end true c.position (cut_append hwithin hsplit)
          (parseNumber_fraction hall (List.cons_ne_nil _ _) (by simp)) hdone
          fun _ h => absurd h (by decide)
        have hlength : text.length = digits.length + 1 + (after.takeWhile isDigit).length + 1 := by
          simp only [text, List.length_append, List.length_cons]
          omega
        have hfollows := follows_token _ hwithin hsplit (by omega)
          (hdigits.trans hpoint |>.gives (gives_produceBefore hend))
        rw [hlength] at hfollows
        exact hfollows
      · rename_i hfraction
        apply hwhole
        rw [Cursor.peek_eq_head?, hd, hsecond]
        simpa using hfraction

theorem follows_slash (hslash : first = byteOf '/') :
    Follows source c (Lexeme.readSlash rest).1 ((Lexeme.readSlash rest).2 + 1) := by
  subst hslash
  have hstep : c.step.rest = rest := by rw [Cursor.step_cons hrest]
  have hoffset : c.step.offset = c.offset + 1 := by rw [Cursor.step_cons hrest]
  have hroot : Reaches source ⟨.root, c⟩ 1 ⟨.symbol (byteOf '/') c.offset c.position, c.step⟩ :=
    reaches_step (by
      rw [visit, visitRoot, Cursor.peek_eq_head?, hrest]
      rfl)
  have hdivide : c.step.peek ≠ some (byteOf '/') →
      Follows source c (.token (.operator .divide)) 1 := by
    intro hpeek
    have hend : visit source c.step (.symbol (byteOf '/') c.offset c.position) =
        .ok (.produceBefore
          (token source (.operator .divide) c.position c.offset c.step.offset)) := by
      rw [visit, visitSymbol, if_pos rfl, if_neg hpeek]
    exact follows_token [byteOf '/'] hwithin hrest (by simp)
      (hroot.gives (gives_produceBefore hend))
  unfold Lexeme.readSlash
  cases rest with
  | nil => exact hdivide (by simp [Cursor.peek_step hrest])
  | cons second comment =>
      dsimp only
      split
      · rename_i hsecond
        subst hsecond
        let p : UInt8 → Bool := (· != byteOf '\n')
        have hcomment : visit source c.step (.symbol (byteOf '/') c.offset c.position) =
            .ok (.step .comment) := by
          rw [visit, visitSymbol, if_pos rfl, Cursor.peek_step hrest, List.head?_cons, if_pos rfl]
        have hloop := reaches_takeWhile source (p := p) .comment
          (fun d b hpeek hb => by simp_all [visit, visitComment, p]) c.step.step
        have hend := reaches_resume (visitComment_end source
          (fun b hb => by simpa [p] using Cursor.peek_skip_takeWhile (p := p) (c := c.step.step) hb))
        rw [show c.step.step.rest = comment by rw [Cursor.step_cons hstep]] at hloop hend
        have hlength := length_takeWhile_le p comment
        have hread := (hroot.trans (reaches_step hcomment)).trans (hloop.trans hend)
        have hskip : c.step.step.skip (comment.takeWhile p).length =
            c.skip (1 + (comment.takeWhile p).length + 1) := by
          rw [Nat.add_right_comm]
          exact (Cursor.skip_add 2 _ c).symm
        rw [hskip] at hread
        exact follows_blank
          (show 1 + 1 + ((comment.takeWhile p).length + 1) ≤
            3 * (1 + (comment.takeWhile p).length + 1) by omega)
          (show 1 + (comment.takeWhile p).length + 1 ≤ c.rest.length by
            rw [hrest, List.length_cons, List.length_cons]
            omega) hread
      · rename_i hsecond
        exact hdivide (by simpa [Cursor.peek_step hrest] using hsecond)

theorem follows_symbol (hspace : Lexeme.isSpace first = false) (hquote : first ≠ byteOf '"')
    (hdigit : isDigit first = false) (hword : Lexeme.startsWord first = false)
    (hslash : first ≠ byteOf '/') :
    Follows source c (Lexeme.readSymbol first rest).1 ((Lexeme.readSymbol first rest).2 + 1) := by
  have hstep : c.step.rest = rest := by rw [Cursor.step_cons hrest]
  have hpeek : c.peek = some first := by rw [Cursor.peek_eq_head?, hrest, List.head?_cons]
  unfold Lexeme.readSymbol
  cases hsingle : Lexeme.single.lookup first with
  | some kind =>
      have hroot : visit source c .root =
          .ok (.produce (token source kind c.position c.offset c.step.offset)) := by
        simp [visit, visitRoot, hpeek, hspace, hdigit, hword, hquote, hsingle,
          Cursor.offset_step hpeek]
      exact follows_token [first] hwithin hrest (by simp) (gives_produce hroot)
  | none =>
      cases hextensible : Lexeme.extensible.lookup first with
      | none =>
          have hroot : visit source c .root =
              .ok (.produce (.error ⟨.unexpected first, c.position⟩)) := by
            simp [visit, visitRoot, hpeek, hspace, hdigit, hword, hquote, hsingle, hextensible, hslash]
          exact .gives rfl (by simp) (by simp [hrest]) (gives_produce hroot)
      | some ops =>
          obtain ⟨short, long⟩ := ops
          have hroot : visit source c .root = .ok (.step (.symbol first c.offset c.position)) := by
            simp [visit, visitRoot, hpeek, hspace, hdigit, hword, hquote, hsingle, hextensible]
          dsimp only
          split
          · rename_i hequals
            rw [← hstep, ← Cursor.peek_eq_head?] at hequals
            have hend : visit source c.step (.symbol first c.offset c.position) =
                .ok (.produce
                  (token source (.operator long) c.position c.offset c.step.step.offset)) := by
              rw [visit, visitSymbol, if_neg hslash, hextensible, Cursor.offset_step hequals]
              dsimp only
              rw [if_pos hequals]
            have hsplit : c.rest = [first, byteOf '='] ++ rest.tail := by
              rw [Cursor.peek_step hrest, List.head?_eq_some_iff] at hequals
              obtain ⟨after, rfl⟩ := hequals
              exact hrest
            exact follows_token [first, byteOf '='] hwithin hsplit (by simp)
              ((reaches_step hroot).gives (gives_produce hend))
          · rename_i hequals
            rw [← hstep, ← Cursor.peek_eq_head?] at hequals
            have hend : visit source c.step (.symbol first c.offset c.position) =
                .ok (.produceBefore
                  (token source (.operator short) c.position c.offset c.step.offset)) := by
              rw [visit, visitSymbol, if_neg hslash, hextensible]
              dsimp only
              rw [if_neg hequals]
            exact follows_token [first] hwithin hrest (by simp)
              ((reaches_step hroot).gives (gives_produceBefore hend))

/-- The automaton reads lexemes. -/
theorem follows_read :
    Follows source c (Lexeme.read first rest).1 ((Lexeme.read first rest).2 + 1) := by
  unfold Lexeme.read
  split
  · rename_i hspace
    have hroot : visit source c .root = .ok (.step .root) := by
      simp [visit, visitRoot, Cursor.peek_eq_head?, hrest, hspace]
    exact follows_blank (by simp) (by simp [hrest]) (reaches_step hroot)
  rename_i hspace
  rw [Bool.not_eq_true] at hspace
  split
  · exact follows_string hwithin hrest ‹_›
  rename_i hquote
  split
  · exact follows_number hwithin hrest hspace hquote ‹_›
  rename_i hdigit
  rw [Bool.not_eq_true] at hdigit
  split
  · exact follows_word hwithin hrest hspace hquote hdigit ‹_›
  rename_i hword
  rw [Bool.not_eq_true] at hword
  split
  · exact follows_slash hwithin hrest ‹_›
  · exact follows_symbol hwithin hrest hspace hquote hdigit hword ‹_›

end Read

/-! ## Whole sources -/

/-- More fuel changes nothing about a run that ends. -/
theorem run_add {fuel : Nat} {result : Scanned Bytes × Configuration}
    (h : run source fuel q = .ok result) (more : Nat) : run source (fuel + more) q = .ok result := by
  induction fuel generalizing q with
  | zero => cases h
  | succ fuel ih =>
      rw [Nat.add_right_comm, run]
      rw [run] at h
      cases hvisit : visit source q.cursor q.state with
      | error fault =>
          rw [hvisit] at h
          cases h
      | ok t =>
          rw [hvisit] at h
          obtain ⟨state, consume, output⟩ := t
          cases output with
          | some output => exact h
          | none => exact ih h

theorem scan_of_run (fuel : Nat) {result : Scanned Bytes × Configuration}
    (h : run source fuel q = .ok result) (hfuel : fuel ≤ 3 * q.cursor.rest.length + 1) :
    scan source q = .ok result := by
  rw [scan, show 3 * q.cursor.rest.length + 1 = fuel + (3 * q.cursor.rest.length + 1 - fuel) by omega]
  exact run_add h _

/-- An item of the source is scanned. -/
theorem scan_of_gives (h : Gives source q n item r) (hn : n ≤ 3 * q.cursor.rest.length) :
    scan source q = .ok (item, r) :=
  scan_of_run _ (h 0) (by omega)

/-- What is scanned after some silent steps is scanned before them. -/
theorem scan_of_reaches {result : Scanned Bytes × Configuration} (h : Reaches source q n r)
    (hn : n + 3 * r.cursor.rest.length ≤ 3 * q.cursor.rest.length)
    (hscan : scan source r = .ok result) : scan source q = .ok result := by
  rw [scan] at hscan
  exact scan_of_run (n + (3 * r.cursor.rest.length + 1)) ((h _).trans hscan) (by omega)

theorem scanMany_succ {count : Nat} {items : List (Scanned Bytes)} {p : Configuration}
    (h : scan source q = .ok (item, r)) (hmany : scanMany source count r = .ok (items, p)) :
    scanMany source (count + 1) q = .ok (item :: items, p) := by
  rw [scanMany, h]
  show (scanMany source count r >>= _) = _
  rw [hmany]
  rfl

/-- At the end of the source, the end of the input is given again and again. -/
theorem scanMany_end (hrest : c.rest = []) (count : Nat) :
    scanMany source count ⟨.root, c⟩ =
      .ok (List.replicate count (.ok (Scanned.endToken c)), ⟨.root, c⟩) := by
  have hroot : visit source c .root = .ok (.produce (.ok (Scanned.endToken c))) := by
    simp [visit, visitRoot, Cursor.peek_eq_head?, hrest, token, Scanned.endToken, Token.endAt,
      Transition.produce]
  have hgives := gives_produce hroot
  rw [show c.step = c from Cursor.skip_of_rest_eq_nil hrest 1] at hgives
  have hscan : scan source ⟨.root, c⟩ = _ := scan_of_run _ (hgives 0) (Nat.le_add_left _ _)
  induction count with
  | zero => rfl
  | succ count ih => exact scanMany_succ hscan ih

theorem scanMany_of_reaches {count : Nat} {result : List (Scanned Bytes) × Configuration}
    (h : Reaches source q n r) (hn : n + 3 * r.cursor.rest.length ≤ 3 * q.cursor.rest.length)
    (hcount : 0 < count) (hmany : scanMany source count r = .ok result) :
    scanMany source count q = .ok result := by
  cases count with
  | zero => cases hcount
  | succ count =>
      rw [scanMany] at hmany ⊢
      cases hscan : scan source r with
      | error fault =>
          rw [hscan] at hmany
          cases hmany
      | ok given =>
          rw [hscan] at hmany
          rw [scan_of_reaches h hn hscan]
          exact hmany

theorem scanMany_readOnto_nil (hrest : c.rest = []) (fuel extra : Nat) :
    scanMany source ((Scanned.readOnto fuel [] c).length + extra) ⟨.root, c⟩ =
      .ok ((Scanned.readOnto fuel [] c).reverse ++
        List.replicate extra (.ok (Scanned.endToken (c.skip c.rest.length))),
        ⟨.root, c.skip c.rest.length⟩) := by
  rw [Scanned.readOnto_of_rest_eq_nil hrest, Cursor.skip_of_rest_eq_nil hrest, scanMany_end hrest,
    List.length_singleton, Nat.add_comm, List.replicate_succ]
  rfl

/-- The automaton scans what is read from a cursor, lexeme by lexeme. -/
theorem scanMany_readOnto (fuel extra : Nat) (hwithin : c.Within source)
    (hfuel : c.rest.length ≤ fuel) :
    scanMany source ((Scanned.readOnto fuel [] c).length + extra) ⟨.root, c⟩ =
      .ok ((Scanned.readOnto fuel [] c).reverse ++
        List.replicate extra (.ok (Scanned.endToken (c.skip c.rest.length))),
        ⟨.root, c.skip c.rest.length⟩) := by
  induction fuel generalizing c with
  | zero =>
      have hrest : c.rest = [] := List.eq_nil_of_length_eq_zero (Nat.le_zero.mp hfuel)
      exact scanMany_readOnto_nil hrest 0 extra
  | succ fuel ih =>
      by_cases hrest : c.rest = []
      · exact scanMany_readOnto_nil hrest (fuel + 1) extra
      obtain ⟨first, rest, hrest⟩ := List.exists_cons_of_ne_nil hrest
      obtain ⟨n, hn, hlength, hfollows⟩ := follows_read hwithin hrest
      let length := (Lexeme.read first rest).2 + 1
      have hnext : (c.skip length).rest.length = c.rest.length - length := by
        rw [Cursor.rest_skip, List.length_drop]
      have hread := ih (hwithin.skip length) (by omega)
      rw [← Cursor.skip_add, hnext, Nat.add_sub_cancel' hlength] at hread
      rw [Scanned.readOnto_of_rest_eq_cons hrest]
      cases hitem : Scanned.ofLexeme? c length (Lexeme.read first rest).1 with
      | some item =>
          rw [hitem] at hfollows
          have hscan := scan_of_gives hfollows (Nat.le_trans hn (Nat.mul_le_mul_left 3 hlength))
          have hmany := scanMany_succ hscan hread
          rw [Nat.add_right_comm, ← List.cons_append] at hmany
          simpa [length, hitem] using hmany
      | none =>
          rw [hitem] at hfollows
          have hcount := Scanned.length_readOnto_pos fuel (c.skip length)
          rw [Option.toList_none, List.append_nil]
          exact scanMany_of_reaches hfollows
            (show n + 3 * (c.skip length).rest.length ≤ 3 * c.rest.length by omega)
            (Nat.add_pos_left hcount extra) hread

/-- The automaton scans the items of a source without a fault, and the end of the input again
and again after them. -/
theorem scanMany_ofSource (source : Bytes) (extra : Nat) :
    scanMany source ((Scanned.ofSource source).length + extra) (start source) =
      .ok (Scanned.ofSourcePast source extra, ⟨.root, (Cursor.start source).skip source.length⟩) := by
  rw [Scanned.ofSourcePast, Scanned.ofSource, List.length_reverse]
  exact scanMany_readOnto source.length extra (Cursor.within_start source)
    (Nat.le_refl _)

end Automaton

end LoxCompiler
