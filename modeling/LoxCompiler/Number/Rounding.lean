import LoxCompiler.Text.Bytes
import LoxCompiler.Number.Binary64

/-! # Rounding decimals to binary

The number nearest to a ratio of natural numbers, computed exactly: a half goes to the even
neighbour, and what is too large for a finite number becomes infinity.
-/

namespace LoxCompiler

/-- The ratio of two naturals rounded to a natural, a half to the even neighbour. -/
def roundHalfEven (numerator denominator : Nat) : Nat :=
  let quotient := numerator / denominator
  let twice := 2 * (numerator % denominator)
  if twice < denominator then quotient
  else if denominator < twice then quotient + 1
  else quotient + quotient % 2

/-- The exponent of the greatest power of two that is at most the ratio, for a positive
ratio. -/
def floorLog2 (numerator denominator : Nat) : Int :=
  let guess : Int := (numerator.log2 : Int) - denominator.log2
  let reached :=
    if 0 ≤ guess then decide (denominator * twoPow guess.toNat ≤ numerator)
    else decide (denominator ≤ numerator * twoPow (-guess).toNat)
  if reached then guess else guess - 1

/-- The positive number nearest to a ratio. The unit of the last place is a power of two that
leaves fifty-three bits, or the least unit there is; one formula gives the word, since a
mantissa that rounds up to the next power of two carries into the exponent field. -/
def Binary64.ofRatio (numerator denominator : Nat) : Binary64 :=
  if numerator = 0 then ⟨0⟩
  else
    let unit := max (-1074) (floorLog2 numerator denominator - 52)
    let mantissa :=
      if 0 ≤ unit then roundHalfEven numerator (denominator * twoPow unit.toNat)
      else roundHalfEven (numerator * twoPow (-unit).toNat) denominator
    let word := (unit + 1074).toNat * twoPow 52 + mantissa
    ⟨UInt64.ofNat (min word infinityWord)⟩

/-- The natural number that some decimal digits write. -/
def digitsValue (digits : Bytes) : Nat :=
  digits.foldl (fun value b => 10 * value + (b.toNat - (byteOf '0').toNat)) 0

/-- The number nearest to the decimal with the given digits before and after its point. -/
def Binary64.ofDigits (whole fractional : Bytes) : Binary64 :=
  ofRatio (digitsValue (whole ++ fractional)) (tenPow fractional.length)

end LoxCompiler
