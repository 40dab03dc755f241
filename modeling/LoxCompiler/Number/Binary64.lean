import LoxCompiler.Number.Power

/-! # Binary floating point numbers of 64 bits

A number is its word of bits, so numbers with equal bits are equal and every word is a
number. A finite number is `mantissa * 2 ^ exponent` with a sign.
-/

namespace LoxCompiler

/-- A floating point number in the 64 bit binary interchange format. -/
structure Binary64 where
  bits : UInt64
deriving DecidableEq, Repr

namespace Binary64

/-- The kinds of number. -/
inductive Shape where
  | finite (mantissa : Nat) (exponent : Int)
  | infinite
  | notANumber

/-- Whether the sign bit is set. -/
def negative (x : Binary64) : Bool := twoPow 63 ≤ x.bits.toNat

/-- The eleven bits of the exponent field. -/
def exponentField (x : Binary64) : Nat := x.bits.toNat / twoPow 52 % twoPow 11

/-- The fifty-two bits below the exponent field. -/
def fraction (x : Binary64) : Nat := x.bits.toNat % twoPow 52

/-- The number without its sign. Numbers with a zero exponent field have no hidden bit and
the exponent of the least field that has one. -/
def shape (x : Binary64) : Shape :=
  if x.exponentField = 2047 then
    if x.fraction = 0 then .infinite else .notANumber
  else if x.exponentField = 0 then .finite x.fraction (-1074)
  else .finite (twoPow 52 + x.fraction) (x.exponentField - 1075)

/-- Whether the neighbour below is only half as far as the one above: at the powers of two
that start a new exponent. -/
def closerBelow (x : Binary64) : Bool := x.fraction = 0 && 1 < x.exponentField

/-- The word of positive infinity, the least above those of the finite numbers. -/
def infinityWord : Nat := 2047 * twoPow 52

end Binary64

end LoxCompiler
