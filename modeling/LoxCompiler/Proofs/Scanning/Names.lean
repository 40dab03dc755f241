import LoxCompiler.Compilation
import Mathlib.Data.List.Infix
import Mathlib.Data.List.Nodup

/-! # Names and their symbols

A symbol table only grows, so a symbol keeps the name it was given for. Tokens that have symbols
for their names say the same as before, and no identifier has the symbol of a reserved word.
-/

namespace LoxCompiler

namespace SymbolTable

variable {t t' t'' : SymbolTable} {s s' : Symbol} {name : Bytes}

/-- One table has all names of another one, with the same symbols. -/
def Extends (t t' : SymbolTable) : Prop := t.names.toList <+: t'.names.toList

theorem Extends.refl (t : SymbolTable) : t.Extends t := List.prefix_refl _

theorem Extends.trans (h : t.Extends t') (h' : t'.Extends t'') : t.Extends t'' :=
  List.IsPrefix.trans h h'

theorem resolve?_eq_some_iff : t.resolve? s = some name ↔ t.names.toList[s.index]? = some name := by
  rw [resolve?, Array.getElem?_toList]

theorem Extends.resolve? (h : t.Extends t') (hs : t.resolve? s = some name) :
    t'.resolve? s = some name := by
  rw [resolve?_eq_some_iff] at hs ⊢
  obtain ⟨more, hmore⟩ := h
  obtain ⟨hlt, _⟩ := List.getElem?_eq_some_iff.mp hs
  rw [← hmore, List.getElem?_append_left hlt, hs]

/-- No name has two symbols. -/
theorem resolve?_inj (hs : t.resolve? s = some name) (hs' : t.resolve? s' = some name) : s = s' := by
  rw [resolve?_eq_some_iff] at hs hs'
  obtain ⟨hlt, hget⟩ := List.getElem?_eq_some_iff.mp hs
  obtain ⟨hlt', hget'⟩ := List.getElem?_eq_some_iff.mp hs'
  have hindex := (List.Nodup.getElem_inj_iff t.nodup).mp (hget.trans hget'.symm)
  cases s
  cases s'
  exact congrArg Symbol.mk hindex

theorem extends_intern (name : Bytes) (t : SymbolTable) : t.Extends (t.intern name).2 := by
  unfold intern
  split
  · exact .refl t
  · rw [Extends, Array.toList_push]
    exact List.prefix_append _ _

theorem resolve?_intern (name : Bytes) (t : SymbolTable) :
    (t.intern name).2.resolve? (t.intern name).1 = some name := by
  unfold intern
  split
  · rename_i index hindex
    rw [Array.idxOf?_eq_map_finIdxOf?_val, Option.map_eq_some_iff] at hindex
    obtain ⟨place, hplace, rfl⟩ := hindex
    exact Array.getElem?_eq_some_iff.mpr ⟨place.isLt, (Array.finIdxOf?_eq_some_iff.mp hplace).1⟩
  · simp [resolve?]

theorem resolve_of_resolve? (hs : t.resolve? s = some name) : t.resolve s = name := by
  rw [resolve, hs, Option.getD_some]

end SymbolTable

/-! ## Tokens with other names -/

section Map

variable {ν μ : Type} (f : ν → μ)

/-- A kind of token with other names. -/
def TokenKind.mapName : TokenKind ν → TokenKind μ
  | .identifier name => .identifier (f name)
  | .literal (.string value) => .literal (.string (f value))
  | .literal (.number value) => .literal (.number value)
  | .literal (.boolean value) => .literal (.boolean value)
  | .literal .nil => .literal .nil
  | .keyword word => .keyword word
  | .operator op => .operator op
  | .comma => .comma
  | .dot => .dot
  | .semicolon => .semicolon
  | .openParen => .openParen
  | .closeParen => .closeParen
  | .openBrace => .openBrace
  | .closeBrace => .closeBrace
  | .endOfInput => .endOfInput

@[simp] theorem TokenKind.mapName_eq_endOfInput {kind : TokenKind ν} :
    kind.mapName f = .endOfInput ↔ kind = .endOfInput := by
  cases kind with
  | literal value => cases value <;> simp [mapName]
  | _ => simp [mapName]

/-- A token with other names. -/
def Token.mapName (token : Token ν) : Token μ :=
  ⟨token.kind.mapName f, token.position, token.span, token.lexeme⟩

/-- An item with other names. -/
def Scanned.mapName : Scanned ν → Scanned μ
  | .ok token => .ok (token.mapName f)
  | .error e => .error e

end Map

namespace SymbolTable

/-- A table knows the symbol of a kind of token, if it has one. -/
def Knows (t : SymbolTable) : TokenKind Symbol → Prop
  | .identifier s | .literal (.string s) => ∃ name, t.resolve? s = some name
  | _ => True

theorem Knows.extend {t t' : SymbolTable} {kind : TokenKind Symbol} (h : t.Knows kind)
    (ht : t.Extends t') :
    t'.Knows kind ∧ kind.mapName t'.resolve = kind.mapName t.resolve := by
  have hname : ∀ s, (∃ name, t.resolve? s = some name) →
      (∃ name, t'.resolve? s = some name) ∧ t'.resolve s = t.resolve s := by
    rintro s ⟨name, hs⟩
    have hs' := ht.resolve? hs
    exact ⟨⟨name, hs'⟩, by rw [resolve_of_resolve? hs, resolve_of_resolve? hs']⟩
  cases kind with
  | identifier s => exact ⟨(hname s h).1, congrArg TokenKind.identifier (hname s h).2⟩
  | literal value =>
      cases value with
      | string s =>
          exact ⟨(hname s h).1, congrArg (fun name => TokenKind.literal (.string name)) (hname s h).2⟩
      | _ => exact ⟨trivial, rfl⟩
  | _ => exact ⟨trivial, rfl⟩

theorem intern_kind (kind : TokenKind Bytes) (t : SymbolTable) :
    t.Extends (kind.intern t).2 ∧ (kind.intern t).2.Knows (kind.intern t).1 ∧
      (kind.intern t).1.mapName (kind.intern t).2.resolve = kind := by
  have hname : ∀ name : Bytes, t.Extends (t.intern name).2 ∧
      (∃ name', (t.intern name).2.resolve? (t.intern name).1 = some name') ∧
        (t.intern name).2.resolve (t.intern name).1 = name := fun name =>
    ⟨extends_intern name t, ⟨name, resolve?_intern name t⟩,
      resolve_of_resolve? (resolve?_intern name t)⟩
  cases kind with
  | identifier name =>
      obtain ⟨hext, hknows, hres⟩ := hname name
      exact ⟨hext, hknows, congrArg TokenKind.identifier hres⟩
  | literal value =>
      cases value with
      | string name =>
          obtain ⟨hext, hknows, hres⟩ := hname name
          exact ⟨hext, hknows, congrArg (fun name => TokenKind.literal (.string name)) hres⟩
      | _ => exact ⟨.refl t, trivial, rfl⟩
  | _ => exact ⟨.refl t, trivial, rfl⟩

end SymbolTable

namespace Scanned

theorem internAll_cons (item : Scanned Bytes) (items : List (Scanned Bytes)) (t : SymbolTable) :
    internAll (item :: items) t =
      ((intern item t).1 :: (internAll items (intern item t).2).1,
        (internAll items (intern item t).2).2) := by
  unfold internAll
  rw [List.mapM_cons]
  rfl

theorem extends_intern (item : Scanned Bytes) (t : SymbolTable) : t.Extends (intern item t).2 := by
  cases item with
  | error e => exact .refl t
  | ok token => exact (SymbolTable.intern_kind token.kind t).1

theorem extends_internAll (items : List (Scanned Bytes)) (t : SymbolTable) :
    t.Extends (internAll items t).2 := by
  induction items generalizing t with
  | nil => exact .refl t
  | cons item items ih =>
      rw [internAll_cons]
      exact (extends_intern item t).trans (ih _)

/-- With its symbols resolved, an item is what it was. -/
theorem mapName_intern {item : Scanned Bytes} {t t' : SymbolTable}
    (h : (intern item t).2.Extends t') : (intern item t).1.mapName t'.resolve = item := by
  cases item with
  | error e => rfl
  | ok token =>
      obtain ⟨_, hknows, hsame⟩ := SymbolTable.intern_kind token.kind t
      have hlater := (hknows.extend h).2.trans hsame
      exact congrArg (fun kind => (Except.ok
        ⟨kind, token.position, token.span, token.lexeme⟩ : Scanned Bytes)) hlater

/-- With their symbols resolved, the items are what they were. -/
theorem mapName_internAll (items : List (Scanned Bytes)) {t t' : SymbolTable}
    (h : (internAll items t).2.Extends t') :
    (internAll items t).1.map (mapName t'.resolve) = items := by
  induction items generalizing t with
  | nil => rfl
  | cons item items ih =>
      rw [internAll_cons] at h ⊢
      rw [List.map_cons, mapName_intern ((extends_internAll items _).trans h), ih h]

end Scanned

namespace Compilation

/-- The names of the language keep their symbols. -/
theorem resolve?_implicitNames (t : SymbolTable) :
    (implicitNames t).2.resolve? (implicitNames t).1.this =
        some (ascii ['t', 'h', 'i', 's']) ∧
      (implicitNames t).2.resolve? (implicitNames t).1.super =
        some (ascii ['s', 'u', 'p', 'e', 'r']) ∧
      (implicitNames t).2.resolve? (implicitNames t).1.init =
        some (ascii ['i', 'n', 'i', 't']) := by
  let t₁ := (t.intern (ascii ['t', 'h', 'i', 's'])).2
  let t₂ := (t₁.intern (ascii ['s', 'u', 'p', 'e', 'r'])).2
  have h₁ : t₁.Extends t₂ := SymbolTable.extends_intern _ t₁
  have h₂ : t₂.Extends (t₂.intern (ascii ['i', 'n', 'i', 't'])).2 := SymbolTable.extends_intern _ t₂
  exact ⟨(h₁.trans h₂).resolve? (SymbolTable.resolve?_intern _ t),
    h₂.resolve? (SymbolTable.resolve?_intern _ t₁), SymbolTable.resolve?_intern _ t₂⟩

end Compilation

end LoxCompiler
