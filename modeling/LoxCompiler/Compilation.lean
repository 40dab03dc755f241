import LoxCompiler.Grammar.Declaration

/-! # Compiling a source

A source compiles to the function of its top-level code, or to all independent problems that
it has.
-/

namespace LoxCompiler

/-- The outcome of compiling a source. -/
structure Compilation (β : Type) where
  /-- The names of the source, with those that were known before. -/
  symbols : SymbolTable
  /-- The script, or what is wrong with the source, in order. -/
  result : Except (List Diagnostic) (Function β)
  /-- What was noted on the way, in order. -/
  events : List Event

namespace Compilation

/-- Store the names that the language refers to. -/
def implicitNames (table : SymbolTable) : ImplicitNames × SymbolTable :=
  let (this, table) := table.intern (ascii ['t', 'h', 'i', 's'])
  let (super, table) := table.intern (ascii ['s', 'u', 'p', 'e', 'r'])
  let (init, table) := table.intern (ascii ['i', 'n', 'i', 't'])
  (⟨this, super, init⟩, table)

variable {β : Type}

/-- The session before the first token of some items is compiled. -/
def start (names : ImplicitNames) (items : List (Scanned Symbol)) : Session β :=
  { names, reader := .start items
    frames := [.new .script none .anonymous], classes := [], events := [] }

/-- Compile scanned items. Each statement and each expression takes a token, so what is left
to read bounds the nesting. -/
def ofItems (c : Settings β) (names : ImplicitNames) (items : List (Scanned Symbol)) :
    Except Fault (Function β × Session β) :=
  let session := start names items
  (Compile.script (session.reader.remaining + 1) : Compile c _).run session

/-- Compile a source with some settings. -/
def ofSourceWith (c : Settings β) (source : Bytes) (table : SymbolTable) :
    Except Fault (Compilation β) := do
  let (names, table) := implicitNames table
  let (items, symbols) := Scanned.internAll (Scanned.ofSource source) table
  let (function, session) ← ofItems c names items
  let result :=
    if session.reader.hadError then .error session.reader.diagnostics.reverse
    else .ok function
  return { symbols, result, events := session.events.reverse }

/-- Compile a source to bytes. -/
def ofSource (source : Bytes) (table : SymbolTable) : Except Fault (Compilation UInt8) :=
  ofSourceWith .byte source table

end Compilation

end LoxCompiler
