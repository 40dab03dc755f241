import LoxCompiler.Proofs.Run.Takes
import LoxCompiler.Proofs.Scanning.Names

/-! # Scanned sources

The items of a source end with the end of the input, which is nowhere else among them, and no
reserved word is an identifier. A reader takes all tokens of such items without a report exactly
if there is no lexical error among them.
-/

namespace LoxCompiler

/-! ## Lexemes -/

namespace Lexeme

/-- A lexeme is not the end of the input, and no identifier is a reserved word or has the name of
what has none. -/
def Proper : Lexeme → Prop
  | .token .endOfInput => False
  | .token (.identifier name) => reserved.lookup name = none ∧ name ≠ Symbol.anonymousName
  | _ => True

theorem proper_ofWord {word : Bytes} (hword : word ≠ Symbol.anonymousName) :
    (ofWord word).Proper := by
  have hreserved : ∀ entry ∈ reserved, (Lexeme.token entry.2).Proper := by
    simp [reserved, Proper]
  unfold ofWord
  cases hlookup : reserved.lookup word with
  | none => exact ⟨hlookup, hword⟩
  | some kind =>
      obtain ⟨before, after, hsplit, _⟩ := List.lookup_eq_some_iff.mp hlookup
      exact hreserved (word, kind) (by rw [hsplit]; simp)

theorem proper_readNumber (first : UInt8) (rest : Bytes) : (readNumber first rest).1.Proper := by
  unfold readNumber
  dsimp only
  repeat' split
  all_goals trivial

theorem proper_readString (rest : Bytes) : (readString rest).1.Proper := by
  unfold readString
  split <;> trivial

theorem proper_readSlash (rest : Bytes) : (readSlash rest).1.Proper := by
  unfold readSlash
  repeat' split
  all_goals trivial

theorem proper_readSymbol (first : UInt8) (rest : Bytes) : (readSymbol first rest).1.Proper := by
  have hsingle : ∀ entry ∈ single, (Lexeme.token entry.2).Proper := by
    simp [single, Proper]
  unfold readSymbol
  split
  · rename_i kind hlookup
    obtain ⟨before, after, hsplit, _⟩ := List.lookup_eq_some_iff.mp hlookup
    exact hsingle (first, kind) (by rw [hsplit]; simp)
  · repeat' split
    all_goals trivial

theorem proper_read (first : UInt8) (rest : Bytes) : (read first rest).1.Proper := by
  unfold read
  split
  · trivial
  split
  · exact proper_readString rest
  split
  · exact proper_readNumber first rest
  split
  · rename_i hfirst
    refine proper_ofWord fun heq => ?_
    obtain ⟨rfl, -⟩ := List.cons.inj heq
    revert hfirst
    decide
  split
  · exact proper_readSlash rest
  · exact proper_readSymbol first rest

end Lexeme

/-! ## Items -/

namespace Scanned

/-- An item is not the end of the input, and no reserved word. -/
def Proper (item : Scanned Bytes) : Prop :=
  ∀ token, item = .ok token → (Lexeme.token token.kind).Proper

theorem proper_of_lexeme {c : Cursor} {length : Nat} {lexeme : Lexeme} {item : Scanned Bytes}
    (hlexeme : lexeme.Proper) (h : ofLexeme? c length lexeme = some item) : item.Proper := by
  cases lexeme with
  | blank => cases h
  | token kind =>
      cases h
      intro token htoken
      cases htoken
      exact hlexeme
  | malformed cause =>
      cases h
      intro token htoken
      cases htoken

/-- Scanning puts the end of the input and proper items before the items there are. -/
theorem readOnto_eq (fuel : Nat) (items : List (Scanned Bytes)) (c : Cursor) :
    ∃ last new, readOnto fuel items c = .ok last :: (new ++ items) ∧
      last.kind = .endOfInput ∧ ∀ item ∈ new, item.Proper := by
  induction fuel generalizing items c with
  | zero => exact ⟨endToken c, [], rfl, rfl, by simp⟩
  | succ fuel ih =>
      unfold readOnto
      split
      · exact ⟨endToken c, [], rfl, rfl, by simp⟩
      · rename_i first rest _
        dsimp only
        split
        · rename_i item hitem
          obtain ⟨last, new, hread, hlast, hnew⟩ := ih (item :: items)
            (c.skip ((Lexeme.read first rest).2 + 1))
          refine ⟨last, new ++ [item], by simpa using hread, hlast, ?_⟩
          intro other hother
          rcases List.mem_append.mp hother with hother | hother
          · exact hnew other hother
          · rw [List.mem_singleton.mp hother]
            exact proper_of_lexeme (Lexeme.proper_read first rest) hitem
        · exact ih items _

/-- The items of a source are proper ones and the end of the input after them. -/
theorem ofSource_eq (source : Bytes) : ∃ items last,
    ofSource source = items ++ [.ok last] ∧ last.kind = .endOfInput ∧ ∀ item ∈ items, item.Proper := by
  obtain ⟨last, new, hread, hlast, hnew⟩ := readOnto_eq source.length [] (.start source)
  refine ⟨new.reverse, last, ?_, hlast, fun item hitem => hnew item (List.mem_reverse.mp hitem)⟩
  rw [ofSource, hread]
  simp

variable (source : Bytes) (table : SymbolTable)

/-- Tokens with symbols are proper ones and the end of the input after them, and none is an
identifier with a name of the language or with that of what has no name. -/
theorem internAll_ofSource : ∃ items last,
    (internAll (ofSource source) (Compilation.implicitNames table).2).1 = items ++ [.ok last] ∧
      last.kind = .endOfInput ∧ ∀ token, .ok token ∈ items → token.kind ≠ .endOfInput ∧
        token.kind ≠ .identifier (Compilation.implicitNames table).1.this ∧
        token.kind ≠ .identifier (Compilation.implicitNames table).1.super ∧
        token.kind ≠ .identifier .anonymous := by
  obtain ⟨before, last, hsource, hlast, hproper⟩ := ofSource_eq source
  let t := (Compilation.implicitNames table).2
  let t' := (internAll (ofSource source) t).2
  have hnames := mapName_internAll (ofSource source) (SymbolTable.Extends.refl t')
  have hextends : t.Extends t' := extends_internAll _ _
  obtain ⟨hthis, hsuper, _⟩ := Compilation.resolve?_implicitNames table
  rw [hsource, List.map_eq_append_iff] at hnames
  obtain ⟨items, ends, hsplit, hitems, hends⟩ := hnames
  obtain ⟨item, hitem, hitemlast⟩ := List.map_eq_singleton_iff.mp hends
  subst hitem
  have hkind : ∀ token : Token Symbol, ∀ kind : TokenKind Symbol, token.kind = kind →
      (token.mapName t'.resolve).kind = kind.mapName t'.resolve := fun token kind h => by rw [← h]; rfl
  have hresolve : ∀ name : Symbol, ∀ word : Bytes, t.resolve? name = some word →
      (TokenKind.identifier name).mapName t'.resolve = .identifier word := fun name word h =>
    congrArg TokenKind.identifier (SymbolTable.resolve_of_resolve? (hextends.resolve? h))
  cases item with
  | error e => cases hitemlast
  | ok token =>
      refine ⟨items, token, by rw [← hsource] at hsplit; exact hsplit, ?_, ?_⟩
      · have hlast' : token.kind.mapName t'.resolve = .endOfInput := by
          rw [← hlast]
          exact congrArg Token.kind (Except.ok.inj hitemlast)
        simpa using hlast'
      · intro token htoken
        have hmem : .ok (token.mapName t'.resolve) ∈ before := by
          rw [← hitems]
          exact List.mem_map_of_mem (f := mapName t'.resolve) htoken
        have hp := hproper _ hmem _ rfl
        refine ⟨fun h => ?_, fun h => ?_, fun h => ?_, fun h => ?_⟩
        · rw [hkind _ _ h] at hp
          exact hp
        · rw [hkind _ _ h, hresolve _ _ hthis] at hp
          exact absurd (show Lexeme.reserved.lookup _ = none from hp.1) (by decide)
        · rw [hkind _ _ h, hresolve _ _ hsuper] at hp
          exact absurd (show Lexeme.reserved.lookup _ = none from hp.1) (by decide)
        · rw [hkind _ _ h, hresolve .anonymous _ t.anonymous_first] at hp
          exact hp.2 rfl

end Scanned

/-! ## Readers -/

namespace Reader

theorem not_quiet_advanceOver_error {q : Reader} (hq : q.Quiet) (e : LexicalError)
    (items : List (Scanned Symbol)) : ¬ (q.advanceOver (.error e :: items)).Quiet := by
  have hreport : (q.report ⟨.lexical e.cause, e.position.line, .noToken⟩).hadError = true := by
    unfold report
    rw [hq.noPanic]
    rfl
  intro h
  have hover : (q.advanceOver (.error e :: items)).hadError = true :=
    advanceOver_of_report report_hadError (fun _ _ _ h => h) _ items hreport
  exact Bool.false_ne_true (h.noError.symm.trans hover)

/-- A reader takes tokens up to the end of the input exactly if its items are these tokens. -/
theorem takes_advance_iff {items : List (Scanned Symbol)} {last : Token Symbol} {q : Reader}
    {ts : List Kind} (hq : q.Quiet) (hitems : q.upcoming = items ++ [.ok last])
    (hlast : last.kind = .endOfInput)
    (hproper : ∀ token, .ok token ∈ items → token.kind ≠ .endOfInput) (hts : .endOfInput ∉ ts) :
    (∃ r, q.advance.Takes (ts ++ [.endOfInput]) r) ↔
      items.map (Except.map Token.kind) = ts.map .ok := by
  induction items generalizing q ts with
  | nil =>
      have hadvance : q.advance = { q with previous := q.current, current := last, upcoming := [] } := by
        unfold advance
        rw [hitems]
        rfl
      have hquiet : q.advance.Quiet := hadvance ▸ ⟨hq.noError, hq.noPanic⟩
      cases ts with
      | nil =>
          have hend : q.advance.advance.Quiet := by
            rw [hadvance]
            exact ⟨hq.noError, hq.noPanic⟩
          have hkind : q.advance.current.kind = .endOfInput := by
            rw [hadvance]
            exact hlast
          simp only [List.map_nil, iff_true]
          exact ⟨_, hquiet, hkind, hend, rfl⟩
      | cons kind ts =>
          have hkind : last.kind ≠ kind := fun h => hts (by simp [← h, hlast])
          simp [Takes, hadvance, hkind]
  | cons item items ih =>
      cases item with
      | error e =>
          have hnot : ¬ q.advance.Quiet := by
            unfold advance
            rw [hitems]
            exact not_quiet_advanceOver_error (q := { q with previous := q.current, upcoming := _ })
              ⟨hq.noError, hq.noPanic⟩ e _
          constructor
          · rintro ⟨r, hr⟩
            exact (hnot hr.quiet).elim
          · intro h
            cases ts <;> cases h
      | ok token =>
          have hadvance : q.advance = { q with previous := q.current, current := token,
                                               upcoming := items ++ [.ok last] } := by
            unfold advance
            rw [hitems]
            rfl
          have hquiet : q.advance.Quiet := hadvance ▸ ⟨hq.noError, hq.noPanic⟩
          have hrest : ∀ token, .ok token ∈ items → token.kind ≠ .endOfInput :=
            fun token h => hproper token (List.mem_cons_of_mem _ h)
          have hkind := hproper token List.mem_cons_self
          cases ts with
          | nil => simp [Takes, hadvance, hkind]
          | cons kind ts =>
              have ih : (∃ r, q.advance.advance.Takes (ts ++ [.endOfInput]) r) ↔
                  items.map (Except.map Token.kind) = ts.map .ok :=
                ih hquiet (by rw [hadvance]) hrest fun h => hts (List.mem_cons_of_mem _ h)
              simp only [List.cons_append, Takes, hquiet, true_and, exists_and_left, ih,
                List.map_cons, List.cons.injEq]
              rw [hadvance]
              simp [Except.map]

end Reader

end LoxCompiler
