import LoxCompiler.Source.Position

/-! # Cursors

A cursor stands between two bytes of the source: it knows what is left, and how far it has
come as an offset and as a line and column.
-/

namespace LoxCompiler

/-- A place in the source with the bytes that follow it. -/
structure Cursor where
  rest : Bytes
  offset : Nat
  position : Position

namespace Cursor

/-- The cursor before the first byte. -/
def start (source : Bytes) : Cursor := ⟨source, 0, .start⟩

/-- Whether no byte is left. -/
def atEnd (c : Cursor) : Bool := c.rest.isEmpty

/-- The next byte, if any. -/
def peek (c : Cursor) : Option UInt8 := c.rest[0]?

/-- The byte after the next one, if any. -/
def peekSecond (c : Cursor) : Option UInt8 := c.rest[1]?

/-- Move past the next byte. At the end nothing moves. -/
def step (c : Cursor) : Cursor :=
  match c.rest with
  | [] => c
  | b :: rest => ⟨rest, c.offset + 1, c.position.after b⟩

/-- Move past some number of bytes, or to the end. -/
def skip : Nat → Cursor → Cursor
  | 0, c => c
  | n + 1, c => skip n c.step

@[simp] theorem rest_step (c : Cursor) : c.step.rest = c.rest.drop 1 := by
  unfold step
  split <;> simp_all

@[simp] theorem rest_skip (n : Nat) (c : Cursor) : (c.skip n).rest = c.rest.drop n := by
  induction n generalizing c with
  | zero => rfl
  | succ n ih => rw [skip, ih, rest_step, List.drop_drop, Nat.add_comm]

end Cursor

end LoxCompiler
