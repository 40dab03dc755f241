import LoxCompiler.Text.Utf8
import LoxCompiler.Text.Layout

/-! # Symbols

Names and string literals are stored once, in a table, and stand for themselves as small
numbers everywhere else. Two symbols of one table are equal exactly if their names are.
-/

namespace LoxCompiler

/-- A number that stands for a name in a symbol table. -/
structure Symbol where
  index : Nat
deriving DecidableEq, Repr

namespace Symbol

/-- The symbol of things without a name. No source can write its name, so it differs from the
symbol of every identifier. -/
def anonymous : Symbol := ⟨0⟩

/-- The name of things without a name. -/
def anonymousName : Bytes :=
  ascii ['<', 'a', 'n', 'o', 'n', 'y', 'm', 'o', 'u', 's', '>']

end Symbol

/-- The names stored so far, in the order of their symbols: the anonymous one first, and no
name twice. -/
structure SymbolTable where
  names : Array Bytes
  anonymous_first : names[0]? = some Symbol.anonymousName
  nodup : names.toList.Nodup

namespace SymbolTable

/-- The table that stores no name but the anonymous one. -/
def empty : SymbolTable := ⟨#[Symbol.anonymousName], rfl, by simp⟩

/-- The name of a symbol, if the table has it. -/
def resolve? (table : SymbolTable) (s : Symbol) : Option Bytes := table.names[s.index]?

/-- The name of a symbol, empty if the table does not have it. -/
def resolve (table : SymbolTable) (s : Symbol) : Bytes := (table.resolve? s).getD []

theorem nodup_push {names : Array Bytes} {name : Bytes} (h : names.toList.Nodup)
    (hnew : names.idxOf? name = none) : (names.push name).toList.Nodup := by
  rw [Array.idxOf?_eq_none_iff] at hnew
  rw [Array.toList_push, List.nodup_append]
  refine ⟨h, by simp, ?_⟩
  intro a ha b hb heq
  rw [List.mem_singleton] at hb
  subst hb heq
  exact hnew (Array.mem_toList_iff.mp ha)

/-- The symbol of a name, which is stored if it is new. -/
def intern (name : Bytes) (table : SymbolTable) : Symbol × SymbolTable :=
  match h : table.names.idxOf? name with
  | some index => (⟨index⟩, table)
  | none =>
      (⟨table.names.size⟩,
        { names := table.names.push name
          anonymous_first := by
            have hfirst := table.anonymous_first
            obtain ⟨hpos, _⟩ := Array.getElem?_eq_some_iff.mp hfirst
            rw [Array.getElem?_push_lt hpos, ← hfirst, Array.getElem?_eq_getElem hpos]
          nodup := nodup_push table.nodup h })

/-- The name of a symbol as text, in green. -/
def render (table : SymbolTable) (s : Symbol) : String :=
  Text.Colour.green.paint (Utf8.decode (table.resolve s))

end SymbolTable

end LoxCompiler
