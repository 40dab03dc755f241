import LoxCompiler.Source.Cursor
import LoxCompiler.Token.Lexeme

/-! # Scanning

A source is read lexeme by lexeme into the list of its tokens and lexical errors, which ends
with the end of the input. Scanning is pure; names get their symbols in a second pass, from
left to right.
-/

namespace LoxCompiler

/-- A token or a lexical error. -/
abbrev Scanned (ν : Type) := Except LexicalError (Token ν)

namespace Scanned

/-- What a lexeme at a cursor adds to the scanned items, if anything. -/
def ofLexeme? (c : Cursor) (length : Nat) : Lexeme → Option (Scanned Bytes)
  | .blank => none
  | .token kind =>
      some (.ok ⟨kind, c.position, ⟨c.offset, c.offset + length⟩, c.rest.take length⟩)
  | .malformed cause => some (.error ⟨cause, c.position⟩)

/-- The end of the input as a token at a cursor. -/
def endToken (c : Cursor) : Token Bytes := .endAt c.position c.offset

/-- Scan from a cursor to the end, newest item first. Every lexeme takes a byte, so the
number of bytes left is fuel enough. -/
def readOnto : Nat → List (Scanned Bytes) → Cursor → List (Scanned Bytes)
  | 0, items, c => .ok (endToken c) :: items
  | fuel + 1, items, c =>
      match c.rest with
      | [] => .ok (endToken c) :: items
      | first :: rest =>
          let (lexeme, more) := Lexeme.read first rest
          let next := c.skip (more + 1)
          match ofLexeme? c (more + 1) lexeme with
          | some item => readOnto fuel (item :: items) next
          | none => readOnto fuel items next

/-- All tokens and lexical errors of a source in order, up to the end of the input. -/
def ofSource (source : Bytes) : List (Scanned Bytes) :=
  (readOnto source.length [] (.start source)).reverse

/-- The items of a source with the end of the input given again and again after it. -/
def ofSourcePast (source : Bytes) (extra : Nat) : List (Scanned Bytes) :=
  let c := (Cursor.start source).skip source.length
  ofSource source ++ List.replicate extra (.ok (endToken c))

/-- Give the names of an item their symbols. -/
def intern : Scanned Bytes → StateM SymbolTable (Scanned Symbol)
  | .ok token => fun table =>
      let (token, table) := token.intern table
      (.ok token, table)
  | .error e => fun table => (.error e, table)

/-- Give all names their symbols, from left to right. -/
def internAll (items : List (Scanned Bytes)) (table : SymbolTable) :
    List (Scanned Symbol) × SymbolTable :=
  (items.mapM intern).run table

end Scanned

end LoxCompiler
