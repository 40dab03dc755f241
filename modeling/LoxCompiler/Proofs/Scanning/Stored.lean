import LoxCompiler.Proofs.Acceptance
import LoxCompiler.Proofs.Composition.Tokens

/-! # Stored names

A table that has stored all names of a source does not change when the source is compiled, and each
name has one symbol in it.
-/

namespace LoxCompiler

namespace SymbolTable

/-- The symbol of a name. -/
def symbol (t : SymbolTable) (name : Bytes) : Symbol := (t.intern name).1

variable {t : SymbolTable} {s : Symbol} {name name' : Bytes}

theorem symbol_of_resolve? (h : t.resolve? s = some name) : t.symbol name = s :=
  congrArg Prod.fst (intern_of_resolve? h)

/-- A name that is stored shares its symbol with no other one. -/
theorem eq_of_symbol_eq (h : t.resolve? s = some name) (heq : t.symbol name' = t.symbol name) :
    name' = name := by
  have hname := (extends_intern name' t).resolve? h
  have hname' := resolve?_intern name' t
  rw [← symbol_of_resolve? h, ← heq] at hname
  exact Option.some.inj (hname'.symm.trans hname)

end SymbolTable

namespace Scanned

variable {t : SymbolTable}

/-- An item gets the symbols that its names have already. -/
theorem intern_of_extends {item : Scanned Bytes} {t₀ : SymbolTable} (h : (intern item t₀).2.Extends t) :
    intern item t = (item.mapName t.symbol, t) := by
  cases item with
  | error e => rfl
  | ok token =>
      have hstored (name : Bytes) (h : (t₀.intern name).2.Extends t) :
          t.intern name = (t.symbol name, t) := by
        have hresolve := SymbolTable.intern_of_resolve?
          (h.resolve? (SymbolTable.resolve?_intern name t₀))
        rw [SymbolTable.symbol, hresolve]
      obtain ⟨kind, position, span, lexeme⟩ := token
      have hkind : kind.intern t = (kind.mapName t.symbol, t) := by
        cases kind with
        | identifier name => simp only [TokenKind.intern, hstored name h, TokenKind.mapName]
        | literal value =>
            cases value with
            | string name => simp only [TokenKind.intern, hstored name h, TokenKind.mapName]
            | _ => rfl
        | _ => rfl
      simp only [intern, Token.intern, hkind]
      rfl

/-- All items get the symbols that their names have already. -/
theorem internAll_of_extends {items : List (Scanned Bytes)} {t₀ : SymbolTable}
    (h : (internAll items t₀).2.Extends t) :
    internAll items t = (items.map (mapName t.symbol), t) := by
  induction items generalizing t₀ with
  | nil => rfl
  | cons item items ih =>
      rw [internAll_cons] at h
      rw [internAll_cons, intern_of_extends ((extends_internAll items _).trans h), ih h]
      rfl

end Scanned

namespace Compilation

variable {source : Bytes} {table t : SymbolTable}

theorem items_of_extends (h : (symbolsOf source table).Extends t) :
    items source t = (Scanned.ofSource source).map (Scanned.mapName t.symbol) := by
  have himplicit := implicitNames_of_extends ((Scanned.extends_internAll _ _).trans h)
  rw [items, himplicit, Scanned.internAll_of_extends h]

theorem symbolsOf_of_extends (h : (symbolsOf source table).Extends t) : symbolsOf source t = t := by
  have himplicit := implicitNames_of_extends ((Scanned.extends_internAll _ _).trans h)
  rw [symbolsOf, himplicit, Scanned.internAll_of_extends h]

/-- With all names stored, the tokens of a source are known. -/
theorem scans_of_extends (h : (symbolsOf source table).Extends t) {ts : List Kind} :
    Scans source t ts ↔
      (Scanned.ofSource source).map (Except.map fun token => token.kind.mapName t.symbol) =
        (ts ++ [TokenKind.endOfInput]).map .ok := by
  have hkinds : (items source t).map (Except.map Token.kind) =
      (Scanned.ofSource source).map (Except.map fun token => token.kind.mapName t.symbol) := by
    rw [items_of_extends h, List.map_map]
    refine List.map_congr_left fun item _ => ?_
    cases item <;> rfl
  rw [Scans, hkinds]

end Compilation

end LoxCompiler
