import LoxCompiler.Proofs.Binding.Numbers

/-! # The symbols of tokens

Sources are scanned one after the other with one table. Two tokens have the same symbol exactly if
they are called the same, and no identifier has the symbol of a reserved word or that of things
without a name. A string may have any bytes between its quotes: the one that has the name of things
without a name shares their symbol.
-/

namespace LoxCompiler

/-! ## What a token is called -/

/-- The name of an identifier, or what a string has between its quotes. -/
def Token.contents {ν : Type} (token : Token ν) : Bytes :=
  match token.kind with
  | .literal (.string _) => token.lexeme.tail.dropLast
  | _ => token.lexeme

theorem Token.contents_mapName {ν μ : Type} (f : ν → μ) (token : Token ν) :
    (token.mapName f).contents = token.contents := by
  obtain ⟨kind, _, _, _⟩ := token
  cases kind with
  | literal value => cases value <;> rfl
  | _ => rfl

/-- A name is that of an identifier or a string. -/
theorem TokenKind.eq_of_name? {ν : Type} {kind : TokenKind ν} {name : ν}
    (h : kind.name? = some name) : kind = .identifier name ∨ kind = .literal (.string name) := by
  cases kind with
  | identifier x =>
      obtain rfl := Option.some.inj h
      exact .inl rfl
  | literal value =>
      cases value with
      | string x =>
          obtain rfl := Option.some.inj h
          exact .inr rfl
      | _ => cases h
  | _ => cases h

/-- A token with a name is an identifier, which is a word that is not reserved, or it is a string,
which is written between quotes. -/
theorem Written.of_name? {kind : TokenKind Bytes} {name text : Bytes} (h : Written kind text)
    (hname : kind.name? = some name) :
    (kind = .identifier name ∧ text = name ∧ Lexeme.reserved.lookup name = none ∧
      name ≠ Symbol.anonymousName) ∨
    (kind = .literal (.string name) ∧ text = byteOf '"' :: name ++ [byteOf '"']) := by
  cases h with
  | symbol h =>
      have hnone : ∀ entry ∈ symbols, entry.2.name? = none := by decide +kernel
      rw [hnone _ h] at hname
      cases hname
  | @word first more hfirst _ =>
      cases hlookup : Lexeme.reserved.lookup (first :: more) with
      | none =>
          rw [hlookup] at hname
          obtain rfl : first :: more = name := Option.some.inj hname
          refine .inl ⟨rfl, rfl, hlookup, fun heq => ?_⟩
          obtain rfl := (List.cons.inj heq).1
          exact absurd hfirst (by decide)
      | some reserved =>
          have hnone : ∀ entry ∈ Lexeme.reserved, entry.2.name? = none := by decide +kernel
          obtain ⟨before, after, hsplit, -⟩ := List.lookup_eq_some_iff.mp hlookup
          have hreserved := hnone (first :: more, reserved) (by simp [hsplit])
          rw [hlookup, Option.getD_some, hreserved] at hname
          cases hname
  | integer _ _ => cases hname
  | decimal _ _ _ _ => cases hname
  | string _ =>
      obtain rfl := Option.some.inj hname
      exact .inr ⟨rfl, rfl⟩

theorem Lexeme.At.written {first : UInt8} {rest : Bytes} {kind : TokenKind Bytes} {n : Nat}
    (h : At first rest (.token kind) n) : Written kind (first :: rest.take n) := by
  cases h with
  | token hrest hwritten _ _ _ => rwa [hrest, List.take_left]

/-- The tokens of a source are written with their lexemes. -/
theorem Tokenized.written {before rest : Bytes} {items : List (Scanned Bytes)}
    (h : Tokenized before rest items) {token : Token Bytes} (htoken : .ok token ∈ items)
    (hkind : token.kind ≠ .endOfInput) : Written token.kind token.lexeme := by
  induction h with
  | finish =>
      obtain rfl := Except.ok.inj (List.mem_singleton.mp htoken)
      exact (hkind rfl).elim
  | @lexeme before first more rest lexeme items hat _ ih =>
      rcases List.mem_append.mp htoken with htoken | htoken
      · cases lexeme with
        | blank => cases htoken
        | malformed cause => cases List.mem_singleton.mp htoken
        | token kind =>
            obtain rfl := Except.ok.inj (List.mem_singleton.mp htoken)
            simpa using hat.written
      · exact ih htoken

/-! ## Scans one after the other -/

namespace Automaton

/-- Scan some items of each source, one source after the other, and give the names their symbols. -/
def scanEach : List (Bytes × Nat) → SymbolTable →
    Except Fault (List (Scanned Symbol) × SymbolTable)
  | [], table => .ok ([], table)
  | (source, count) :: scans, table => do
      let (items, _) ← scanMany source count (start source)
      let interned := Scanned.internAll items table
      let (more, table) ← scanEach scans interned.2
      return (interned.1 ++ more, table)

/-- A scan of fewer items gives the first ones. -/
theorem scanMany_take {source : Bytes} {q r : Configuration} {m n : Nat}
    {items : List (Scanned Bytes)} (h : scanMany source n q = .ok (items, r)) (hle : m ≤ n) :
    ∃ p, scanMany source m q = .ok (items.take m, p) := by
  induction m generalizing n q items with
  | zero => exact ⟨q, rfl⟩
  | succ m ih =>
      cases n with
      | zero => cases hle
      | succ n =>
          rw [scanMany] at h
          cases hscan : scan source q with
          | error fault =>
              rw [hscan] at h
              cases h
          | ok result =>
              obtain ⟨item, q'⟩ := result
              rw [hscan] at h
              cases hmany : scanMany source n q' with
              | error fault =>
                  replace h : (scanMany source n q' >>= _) = _ := h
                  rw [hmany] at h
                  cases h
              | ok rest =>
                  obtain ⟨rest, r'⟩ := rest
                  replace h : (scanMany source n q' >>= _) = _ := h
                  rw [hmany] at h
                  cases h
                  obtain ⟨p, hp⟩ := ih hmany (Nat.le_of_succ_le_succ hle)
                  exact ⟨p, scanMany_succ hscan hp⟩

/-- The items of scans in turn, with their names. -/
def itemsOfEach (scans : List (Bytes × Nat)) : List (Scanned Bytes) :=
  scans.flatMap fun (source, count) => (Scanned.ofSourcePast source count).take count

theorem scanEach_eq (scans : List (Bytes × Nat)) (table : SymbolTable) :
    scanEach scans table = .ok (Scanned.internAll (itemsOfEach scans) table) := by
  induction scans generalizing table with
  | nil => rfl
  | cons scan scans ih =>
      obtain ⟨source, count⟩ := scan
      obtain ⟨q, hscan⟩ :=
        scanMany_take (scanMany_ofSource source count) (Nat.le_add_left count _)
      rw [itemsOfEach, List.flatMap_cons, Scanned.internAll_append]
      simp only [scanEach, hscan, bind, Except.bind, ih]
      rfl

end Automaton

/-- A token with a name that is scanned is called by its name, and it is no identifier if the name
is reserved or that of things without a name. -/
theorem Scanned.contents_of_mem {scans : List (Bytes × Nat)} {token : Token Bytes} {name : Bytes}
    (htoken : .ok token ∈ Automaton.itemsOfEach scans) (hname : token.kind.name? = some name) :
    token.contents = name ∧ (token.kind = .literal (.string name) ∨
      token.kind = .identifier name ∧ Lexeme.reserved.lookup name = none ∧
        name ≠ Symbol.anonymousName) := by
  obtain ⟨⟨source, count⟩, -, hmem⟩ := List.mem_flatMap.mp htoken
  have hkind : token.kind ≠ .endOfInput := by
    intro h
    rw [h] at hname
    cases hname
  have hsource : .ok token ∈ ofSource source := by
    refine (List.mem_append.mp (List.mem_of_mem_take hmem)).resolve_right fun hend => hkind ?_
    obtain rfl := Except.ok.inj (List.eq_of_mem_replicate hend)
    rfl
  obtain ⟨kind, position, span, lexeme⟩ := token
  rcases ((Tokenized.ofSource source).written hsource hkind).of_name? hname with
    ⟨hname, htext, hproper⟩ | ⟨hname, htext⟩ <;>
      dsimp only at hname htext <;> subst hname htext
  · exact ⟨rfl, .inr ⟨rfl, hproper⟩⟩
  · exact ⟨by simp [Token.contents], .inl rfl⟩

/-- An item that has got its symbols is one of the items with names, and the table knows them. -/
theorem Scanned.exists_of_mem_internAll {items : List (Scanned Bytes)} {t₀ t : SymbolTable}
    (h : (internAll items t₀).2.Extends t) {token : Token Symbol}
    (htoken : .ok token ∈ (internAll items t₀).1) :
    .ok (token.mapName t.resolve) ∈ items ∧ t.Knows token.kind := by
  induction items generalizing t₀ with
  | nil => cases htoken
  | cons item items ih =>
      rw [internAll_cons] at h htoken
      rcases List.mem_cons.mp htoken with heq | htoken
      · have hextends := (extends_internAll items _).trans h
        have hitem := mapName_intern hextends
        rw [← heq] at hitem
        refine ⟨hitem ▸ List.mem_cons_self, ?_⟩
        cases item with
        | error e => cases heq
        | ok named =>
            obtain rfl := Except.ok.inj heq
            exact ((SymbolTable.intern_kind named.kind t₀).2.1.extend hextends).1
      · exact (ih h htoken).imp_left (List.mem_cons_of_mem _)

/-- The symbol of a token stands for the name it has, if the table knows it. -/
theorem SymbolTable.Knows.resolve? {t : SymbolTable} {kind : TokenKind Symbol} {s : Symbol}
    (h : t.Knows kind) (hs : kind.name? = some s) : t.resolve? s = some (t.resolve s) := by
  have hknown : ∃ name, t.resolve? s = some name := by
    rcases TokenKind.eq_of_name? hs with rfl | rfl <;> exact h
  obtain ⟨name, hname⟩ := hknown
  rw [resolve_of_resolve? hname, hname]

/-- After some scans, the symbol of a token stands for what the token is called. If that is not a
string, it is a word that is not reserved. -/
theorem Scanned.called_of_mem_internAll {scans : List (Bytes × Nat)} {table : SymbolTable}
    {token : Token Symbol} {s : Symbol}
    (htoken : .ok token ∈ (internAll (Automaton.itemsOfEach scans) table).1)
    (hs : token.kind.name? = some s) :
    (internAll (Automaton.itemsOfEach scans) table).2.resolve? s = some token.contents ∧
      (token.kind = .literal (.string s) ∨ token.kind = .identifier s ∧
        Lexeme.reserved.lookup token.contents = none ∧
          token.contents ≠ Symbol.anonymousName) := by
  let t := (internAll (Automaton.itemsOfEach scans) table).2
  obtain ⟨hraw, hknows⟩ := exists_of_mem_internAll (.refl t) htoken
  have hname : (token.mapName t.resolve).kind.name? = some (t.resolve s) := by
    rw [Token.mapName, TokenKind.name?_mapName, hs, Option.map_some]
  obtain ⟨hcontents, hrole⟩ := contents_of_mem hraw hname
  rw [Token.contents_mapName] at hcontents
  refine ⟨hcontents ▸ hknows.resolve? hs, ?_⟩
  rcases TokenKind.eq_of_name? hs with hkind | hkind
  · have hraw : (token.mapName t.resolve).kind = .identifier (t.resolve s) := by
      rw [Token.mapName, hkind]
      rfl
    rcases hrole with hstring | ⟨-, hproper⟩
    · rw [hraw] at hstring
      cases hstring
    · exact .inr ⟨hkind, hcontents ▸ hproper⟩
  · exact .inl hkind

/-- Scans one after the other with one table never fail, and two of their tokens have the same
symbol exactly if they are called the same. No table gives a reserved word the symbol of an
identifier, then or later. A token has the symbol of things without a name exactly if it is a string
with their name for its contents. -/
theorem Automaton.symbols_of_scanEach (scans : List (Bytes × Nat)) (table : SymbolTable) :
    ∃ items t, scanEach scans table = .ok (items, t) ∧ table.Extends t ∧
      ∀ token s, .ok token ∈ items → token.kind.name? = some s →
        t.resolve? s = some token.contents ∧
        (s = .anonymous ↔
          token.kind = .literal (.string s) ∧ token.contents = Symbol.anonymousName) ∧
        (token.kind = .identifier s → ∀ later, t.Extends later → ∀ word,
          (Lexeme.reserved.lookup word).isSome → later.symbol word ≠ s) ∧
        ∀ token' s', .ok token' ∈ items → token'.kind.name? = some s' →
          (s' = s ↔ token'.contents = token.contents) := by
  let t := (Scanned.internAll (itemsOfEach scans) table).2
  refine ⟨_, t, scanEach_eq scans table, Scanned.extends_internAll _ _, ?_⟩
  intro token s htoken hs
  obtain ⟨hresolve, hrole⟩ := Scanned.called_of_mem_internAll htoken hs
  refine ⟨hresolve, ⟨?_, ?_⟩, ?_, ?_⟩
  · rintro rfl
    have hcontents := Option.some.inj (hresolve.symm.trans t.anonymous_first)
    exact ⟨hrole.resolve_right fun h => h.2.2 hcontents, hcontents⟩
  · rintro ⟨-, hcontents⟩
    rw [hcontents] at hresolve
    exact SymbolTable.resolve?_inj hresolve t.anonymous_first
  · intro hkind later hlater word hword heq
    have hnew := (SymbolTable.extends_intern word later).resolve? (hlater.resolve? hresolve)
    rw [← heq] at hnew
    have hsame := Option.some.inj (hnew.symm.trans (SymbolTable.resolve?_intern word later))
    rcases hrole with hstring | ⟨-, hproper, -⟩
    · rw [hkind] at hstring
      cases hstring
    · rw [← hsame, hproper] at hword
      cases hword
  · intro token' s' htoken' hs'
    have hresolve' := (Scanned.called_of_mem_internAll htoken' hs').1
    refine ⟨fun h => ?_, fun h => ?_⟩
    · rw [h, hresolve] at hresolve'
      exact (Option.some.inj hresolve').symm
    · rw [h] at hresolve'
      exact SymbolTable.resolve?_inj hresolve' hresolve

/-- The string that is called like things without a name has their symbol. -/
theorem Automaton.anonymous_of_string :
    (scanEach [(byteOf '"' :: Symbol.anonymousName ++ [byteOf '"'], 1)] .empty).map
      (fun result => result.1.map (Except.map Token.kind)) =
        .ok [.ok (.literal (.string .anonymous))] := by
  decide +kernel

end LoxCompiler
