import LoxCompiler.Proofs.Acceptance
import LoxCompiler.Proofs.Parallel.Constructs
import LoxCompiler.Proofs.Safety.Source
import LoxCompiler.Proofs.Scanning.Names

/-! # Layout and symbols

Two sources with the same kinds of token, each compiled with a symbol table of its own, are compiled
to functions that are alike, or are wrong in the same ways. So neither blanks and comments nor what
a table has stored before make a difference to the code.
-/

namespace LoxCompiler

namespace SymbolTable

variable {t t' : SymbolTable}

theorem sameName_iff {x x' y y' : Symbol} (hx : t.SameName t' x x') (hy : t.SameName t' y y') :
    x = y ↔ x' = y' := by
  obtain ⟨name, hx, hx'⟩ := hx
  obtain ⟨other, hy, hy'⟩ := hy
  constructor
  · rintro rfl
    obtain rfl : name = other := Option.some.inj (hx.symm.trans hy)
    exact resolve?_inj hx' hy'
  · rintro rfl
    obtain rfl : name = other := Option.some.inj (hx'.symm.trans hy')
    exact resolve?_inj hx hy

/-- Symbols of two tables match if they are of the same name. -/
def pairing (t t' : SymbolTable) (line : Nat → Nat → Prop) : Pairing where
  name := t.SameName t'
  line := line
  name_iff := sameName_iff
  anonymous := ⟨_, t.anonymous_first, t'.anonymous_first⟩

/-- Kinds of token that two tables know are alike if they say the same. -/
theorem alike_of_mapName {line : Nat → Nat → Prop} {k k' : Kind} (hk : t.Knows k) (hk' : t'.Knows k')
    (hname : k.mapName t.resolve = k'.mapName t'.resolve) :
    k.Alike (t.pairing t' line) k' := by
  have hsame {x x' : Symbol} (hx : ∃ name, t.resolve? x = some name)
      (hx' : ∃ name, t'.resolve? x' = some name) (heq : t.resolve x = t'.resolve x') :
      t.SameName t' x x' := by
    obtain ⟨name, hx⟩ := hx
    obtain ⟨name', hx'⟩ := hx'
    rw [resolve_of_resolve? hx, resolve_of_resolve? hx'] at heq
    exact ⟨name, hx, heq ▸ hx'⟩
  cases k with
  | identifier x =>
      cases k' with
      | identifier x' => exact .identifier (hsame hk hk' (TokenKind.identifier.inj hname))
      | literal value => cases value <;> exact nomatch hname
      | _ => exact nomatch hname
  | literal value =>
      cases value with
      | string x =>
          cases k' with
          | literal value' =>
              cases value' with
              | string x' =>
                  exact .string (hsame hk hk' (Literal.string.inj (TokenKind.literal.inj hname)))
              | _ => exact nomatch hname
          | _ => exact nomatch hname
      | _ =>
          cases k' with
          | literal value' => cases value' <;> cases hname; exact .same _
          | _ => exact nomatch hname
  | _ =>
      cases k' with
      | literal value' => cases value' <;> exact nomatch hname
      | _ => cases hname <;> exact .same _

end SymbolTable

namespace Scanned

/-- Two items are tokens of the same kind on lines that match, or lexical errors with the same
cause. -/
def SameKind {ν : Type} (line : Nat → Nat → Prop) : Scanned ν → Scanned ν → Prop
  | .ok token, .ok token' =>
      token.kind = token'.kind ∧ line token.position.line token'.position.line
  | .error e, .error e' => e.cause = e'.cause
  | _, _ => False

theorem sameKind_of_kinds {kinds : List (TokenKind Bytes)} {items items' : List (Scanned Bytes)}
    (h : items.map (Except.map Token.kind) = kinds.map .ok)
    (h' : items'.map (Except.map Token.kind) = kinds.map .ok) :
    List.Forall₂ (SameKind fun _ _ => True) items items' := by
  induction kinds generalizing items items' with
  | nil =>
      rw [List.map_eq_nil_iff.mp h, List.map_eq_nil_iff.mp h']
      exact .nil
  | cons kind kinds ih =>
      obtain ⟨item, rest, rfl, hitem, hrest⟩ := List.map_eq_cons_iff.mp h
      obtain ⟨item', rest', rfl, hitem', hrest'⟩ := List.map_eq_cons_iff.mp h'
      refine .cons ?_ (ih hrest hrest')
      match item, item' with
      | .ok token, .ok token' =>
          exact ⟨(Except.ok.inj hitem).trans (Except.ok.inj hitem').symm, trivial⟩

theorem alike_internAll {line : Nat → Nat → Prop} {items items' : List (Scanned Bytes)}
    (h : List.Forall₂ (SameKind line) items items') {t t' u u' : SymbolTable}
    (hu : (internAll items t).2.Extends u) (hu' : (internAll items' t').2.Extends u') :
    List.Forall₂ (Alike (u.pairing u' line)) (internAll items t).1 (internAll items' t').1 := by
  induction h generalizing t t' with
  | nil => exact .nil
  | @cons item item' items items' hitem _ ih =>
      rw [internAll_cons] at hu hu' ⊢
      rw [internAll_cons]
      refine .cons ?_ (ih hu hu')
      have hfirst := (extends_internAll items _).trans hu
      have hfirst' := (extends_internAll items' _).trans hu'
      match item, item', hitem with
      | .error e, .error e', hcause => exact .error hcause
      | .ok token, .ok token', ⟨hkind, hline⟩ =>
          obtain ⟨-, hknows, hsame⟩ := SymbolTable.intern_kind token.kind t
          obtain ⟨-, hknows', hsame'⟩ := SymbolTable.intern_kind token'.kind t'
          obtain ⟨hknows, hlater⟩ := hknows.extend hfirst
          obtain ⟨hknows', hlater'⟩ := hknows'.extend hfirst'
          have hnames : (token.kind.intern t).1.mapName u.resolve =
              (token'.kind.intern t').1.mapName u'.resolve := by
            rw [hlater, hlater', hsame, hsame', hkind]
          exact .ok ⟨SymbolTable.alike_of_mapName hknows hknows' hnames, hline⟩

end Scanned

namespace Compilation

open Compile

variable {β : Type} {w : Width β} {source source' : Bytes} {table table' : SymbolTable}
  {line : Nat → Nat → Prop}

/-- The symbols of a source, with those of the language and of the table before. -/
def symbolsOf (source : Bytes) (table : SymbolTable) : SymbolTable :=
  (Scanned.internAll (Scanned.ofSource source) (implicitNames table).2).2

/-- Two sources of the same kinds of token are first compiled in sessions that are alike. -/
theorem alike_first
    (h : List.Forall₂ (Scanned.SameKind line) (Scanned.ofSource source) (Scanned.ofSource source'))
    (hline : line 1 1) : (first source table : Session β).Alike
      ((symbolsOf source table).pairing (symbolsOf source' table') line)
      (first source' table') := by
  have hext := Scanned.extends_internAll (Scanned.ofSource source) (implicitNames table).2
  have hext' := Scanned.extends_internAll (Scanned.ofSource source') (implicitNames table').2
  obtain ⟨hthis, hsuper, hinit⟩ := resolve?_implicitNames table
  obtain ⟨hthis', hsuper', hinit'⟩ := resolve?_implicitNames table'
  exact {
    this := ⟨_, hext.resolve? hthis, hext'.resolve? hthis'⟩
    super := ⟨_, hext.resolve? hsuper, hext'.resolve? hsuper'⟩
    init := ⟨_, hext.resolve? hinit, hext'.resolve? hinit'⟩
    reader := Reader.alike_start (Scanned.alike_internAll h (.refl _) (.refl _)) hline
    frames := .cons (.new .script .none (Pairing.anonymous _)) .nil
    classes := rfl }

/-- Two compilations come to functions that are alike, or to the same problems. -/
def Matches (line : Nat → Nat → Prop) (c c' : Compilation β) : Prop :=
  (∃ f f', c.result = .ok f ∧ c'.result = .ok f' ∧
    f.Alike (c.symbols.SameName c'.symbols) line f') ∨
  ∃ ds ds', c.result = .error ds ∧ c'.result = .error ds' ∧
    ds.map Diagnostic.problem = ds'.map Diagnostic.problem

theorem matches_of_sameKind
    (h : List.Forall₂ (Scanned.SameKind line) (Scanned.ofSource source) (Scanned.ofSource source'))
    (hline : line 1 1) (table table' : SymbolTable) :
    ∃ c c', ofSourceWith w.settings source table = .ok c ∧
      ofSourceWith w.settings source' table' = .ok c' ∧ c.Matches line c' := by
  have hfirst : (first source table : Session β).Alike _ (first source' table') :=
    alike_first h hline
  obtain ⟨c, hc⟩ := runs_ofSourceWith (w := w) source table
  obtain ⟨c', hc'⟩ := runs_ofSourceWith (w := w) source' table'
  refine ⟨c, c', hc, hc', ?_⟩
  rw [ofSourceWith_eq] at hc hc'
  rw [← hfirst.reader.remaining] at hc'
  have houtcome := (twin_script (w := w)
    ((first source table : Session β).reader.remaining + 1)).run hfirst
  generalize (script ((first source table : Session β).reader.remaining + 1) :
    Compile w.settings (Function β)).run (first source table) = x at hc houtcome
  generalize (script ((first source table : Session β).reader.remaining + 1) :
    Compile w.settings (Function β)).run (first source' table') = x' at hc' houtcome
  cases houtcome with
  | fault fault => cases hc
  | @ok f f' s s' hf hs =>
      cases hc
      cases hc'
      unfold Matches outcome
      dsimp only
      rw [← hs.reader.hadError]
      split
      · refine .inr ⟨_, _, rfl, rfl, ?_⟩
        rw [List.map_reverse, List.map_reverse, hs.reader.problems]
      · exact .inl ⟨f, f', rfl, rfl, hf⟩

/-- Layout and earlier names make no difference. Two sources that scan without a lexical error to
the same kinds of token, whatever their symbol tables have stored before, are both compiled to
functions that are the same up to symbols of the same names and lines, or are both rejected for the
same problems. -/
theorem matches_of_kinds (kinds : List (TokenKind Bytes))
    (h : (Scanned.ofSource source).map (Except.map Token.kind) = kinds.map .ok)
    (h' : (Scanned.ofSource source').map (Except.map Token.kind) = kinds.map .ok)
    (table table' : SymbolTable) :
    ∃ c c', ofSource source table = .ok c ∧ ofSource source' table' = .ok c' ∧
      c.Matches (fun _ _ => True) c' := by
  exact matches_of_sameKind (w := .byte) (Scanned.sameKind_of_kinds h h') trivial table table'

/-- A line break and comments around the tokens of `print a;` make no difference, and neither does a
table that has stored the name before. -/
theorem matches_of_comments : ∃ c c',
    ofSource (ascii ['p', 'r', 'i', 'n', 't', ' ', 'a', ';']) .empty = .ok c ∧
      ofSource (ascii ['p', 'r', 'i', 'n', 't', '/', '/', '!', '\n', 'a', ' ', ';', '/', '/'])
        (SymbolTable.empty.intern (ascii ['a'])).2 = .ok c' ∧
      c.Matches (fun _ _ => True) c' :=
  matches_of_kinds [.keyword .printWord, .identifier (ascii ['a']), .semicolon, .endOfInput]
    (by decide +kernel) (by decide +kernel) _ _

end Compilation

end LoxCompiler
