import LoxCompiler.Text.Bytes

/-! # Reading bytes as UTF-8

Names and lexemes are shown as text whatever their bytes are. Every maximal part of an
ill-formed sequence is shown as one replacement character, so the text is defined for all
byte strings and equals the encoded text where the bytes are well formed.
-/

namespace LoxCompiler.Utf8

/-- The character shown for bytes that encode none. -/
def replacement : Char := Char.ofNat 0xFFFD

/-- A character of which some bytes were read: how many bytes follow the next one, the range
the next byte has to be in, and the bits read so far. -/
structure Pending where
  after : Nat
  low : UInt8
  high : UInt8
  bits : Nat

/-- What the first byte of a character says: a whole character, the start of a longer one,
or nothing well formed. -/
inductive Opening where
  | whole (c : Char)
  | longer (pending : Pending)
  | invalid

/-- Read the first byte of a character. The narrower ranges of the second byte exclude
overlong forms, surrogates and values that are no code point. -/
def Opening.ofByte (b : UInt8) : Opening :=
  if b < 0x80 then .whole (Char.ofNat b.toNat)
  else if b < 0xC2 then .invalid
  else if b < 0xE0 then .longer ⟨0, 0x80, 0xBF, b.toNat - 0xC0⟩
  else if b < 0xF0 then
    .longer ⟨1, if b = 0xE0 then 0xA0 else 0x80, if b = 0xED then 0x9F else 0xBF, b.toNat - 0xE0⟩
  else if b < 0xF5 then
    .longer ⟨2, if b = 0xF0 then 0x90 else 0x80, if b = 0xF4 then 0x8F else 0xBF, b.toNat - 0xF0⟩
  else .invalid

/-- The characters read so far, newest first, and the one being read, if any. -/
structure Reading where
  done : List Char
  pending : Option Pending

/-- Read a byte where a character starts. -/
def Reading.openWith (done : List Char) (b : UInt8) : Reading :=
  match Opening.ofByte b with
  | .whole c => ⟨c :: done, none⟩
  | .longer pending => ⟨done, some pending⟩
  | .invalid => ⟨replacement :: done, none⟩

/-- Read one more byte. A byte that cannot continue the pending character ends it as
ill formed and is read again as a first byte. -/
def Reading.step (r : Reading) (b : UInt8) : Reading :=
  match r.pending with
  | none => openWith r.done b
  | some ⟨after, low, high, bits⟩ =>
      if low ≤ b && b ≤ high then
        let bits := bits * 64 + (b.toNat - 0x80)
        match after with
        | 0 => ⟨Char.ofNat bits :: r.done, none⟩
        | after + 1 => ⟨r.done, some ⟨after, 0x80, 0xBF, bits⟩⟩
      else openWith (replacement :: r.done) b

/-- The characters read, in order. A character cut off by the end is ill formed. -/
def Reading.finish (r : Reading) : List Char :=
  match r.pending with
  | none => r.done.reverse
  | some _ => (replacement :: r.done).reverse

/-- The text that some bytes encode, with a replacement character for every ill-formed part. -/
def decode (bytes : Bytes) : String :=
  String.ofList (bytes.foldl Reading.step ⟨[], none⟩).finish

end LoxCompiler.Utf8
