/-! # Bytes

Source code and names are byte strings: nothing forces them to be readable text.
-/

namespace LoxCompiler

/-- A string of bytes, which need not be valid text in any encoding. -/
abbrev Bytes := List UInt8

/-- The byte of an ASCII character. -/
def byteOf (c : Char) : UInt8 := UInt8.ofNat c.toNat

/-- The bytes of a word of ASCII characters. -/
def ascii (word : List Char) : Bytes := word.map byteOf

/-- A decimal digit. -/
def isDigit (b : UInt8) : Bool := byteOf '0' ≤ b && b ≤ byteOf '9'

/-- An ASCII letter of either case. -/
def isLetter (b : UInt8) : Bool :=
  (byteOf 'a' ≤ b && b ≤ byteOf 'z') || (byteOf 'A' ≤ b && b ≤ byteOf 'Z')

/-- A printable ASCII character other than the space. -/
def isGraphic (b : UInt8) : Bool := byteOf '!' ≤ b && b ≤ byteOf '~'

end LoxCompiler
