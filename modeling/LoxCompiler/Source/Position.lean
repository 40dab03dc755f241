import LoxCompiler.Text.Bytes

/-! # Places in the source -/

namespace LoxCompiler

/-- A place in the source as people count: lines from one, columns from zero, columns in
bytes. -/
structure Position where
  line : Nat
  column : Nat
deriving DecidableEq, Repr

namespace Position

/-- The first place of every source. -/
def start : Position := ⟨1, 0⟩

/-- The place after a byte. -/
def after (p : Position) (b : UInt8) : Position :=
  if b = byteOf '\n' then ⟨p.line + 1, 0⟩ else ⟨p.line, p.column + 1⟩

/-- The text of a place. -/
def text (p : Position) : String :=
  "line " ++ toString p.line ++ ", column " ++ toString p.column

end Position

/-- A range of byte offsets, with the end left out. -/
structure Span where
  start : Nat
  stop : Nat
deriving DecidableEq, Repr

end LoxCompiler
