import LoxCompiler.Number.Binary64
import LoxCompiler.Source.Position
import LoxCompiler.Symbol

/-! # Tokens

Kinds of token are generic in what stands for a name: the scanner gives names as bytes, and
the compiler works with symbols.
-/

namespace LoxCompiler

/-- The reserved words that are neither operators nor literals. -/
inductive Keyword where
  | classWord
  | elseWord
  | forWord
  | funWord
  | ifWord
  | printWord
  | returnWord
  | superWord
  | thisWord
  | varWord
  | whileWord
deriving DecidableEq, Repr

/-- The operators, assignment among them. -/
inductive Operator where
  | plus
  | minus
  | times
  | divide
  | equal
  | notEqual
  | greater
  | greaterEqual
  | less
  | lessEqual
  | not
  | and
  | or
  | assign
deriving DecidableEq, Repr

/-- The literal values. -/
inductive Literal (ν : Type) where
  | nil
  | boolean (value : Bool)
  | number (value : Binary64)
  | string (value : ν)
deriving DecidableEq, Repr

/-- The kinds of token, with the values that some of them carry. -/
inductive TokenKind (ν : Type) where
  | identifier (name : ν)
  | keyword (word : Keyword)
  | operator (op : Operator)
  | literal (value : Literal ν)
  | comma
  | dot
  | semicolon
  | openParen
  | closeParen
  | openBrace
  | closeBrace
  | endOfInput
deriving DecidableEq, Repr

/-- A token, the place where it starts, and the bytes it is written with. -/
structure Token (ν : Type) where
  kind : TokenKind ν
  position : Position
  span : Span
  lexeme : Bytes
deriving DecidableEq, Repr

variable {ν : Type}

/-- Whether a token starts a declaration or statement by its keyword. -/
def TokenKind.startsStatement : TokenKind ν → Bool
  | .keyword .classWord | .keyword .funWord | .keyword .varWord | .keyword .forWord
  | .keyword .ifWord | .keyword .whileWord | .keyword .printWord | .keyword .returnWord => true
  | _ => false

/-- The end of an input at some place. -/
def Token.endAt (position : Position) (offset : Nat) : Token ν :=
  ⟨.endOfInput, position, ⟨offset, offset⟩, []⟩

/-- Give names and strings their symbols, and leave the other kinds alone. -/
def TokenKind.intern : TokenKind Bytes → SymbolTable → TokenKind Symbol × SymbolTable
  | .identifier name, table =>
      let (s, table) := table.intern name
      (.identifier s, table)
  | .literal (.string value), table =>
      let (s, table) := table.intern value
      (.literal (.string s), table)
  | .literal (.number value), table => (.literal (.number value), table)
  | .literal (.boolean value), table => (.literal (.boolean value), table)
  | .literal .nil, table => (.literal .nil, table)
  | .keyword word, table => (.keyword word, table)
  | .operator op, table => (.operator op, table)
  | .comma, table => (.comma, table)
  | .dot, table => (.dot, table)
  | .semicolon, table => (.semicolon, table)
  | .openParen, table => (.openParen, table)
  | .closeParen, table => (.closeParen, table)
  | .openBrace, table => (.openBrace, table)
  | .closeBrace, table => (.closeBrace, table)
  | .endOfInput, table => (.endOfInput, table)

/-- Give the names of a token their symbols. -/
def Token.intern (token : Token Bytes) (table : SymbolTable) : Token Symbol × SymbolTable :=
  let (kind, table) := token.kind.intern table
  (⟨kind, token.position, token.span, token.lexeme⟩, table)

end LoxCompiler
