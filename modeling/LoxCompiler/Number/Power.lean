/-! # Powers of two and of ten

The units of binary and of decimal notation, on which a number's places stand.
-/

namespace LoxCompiler

/-- The power of two with the given exponent. -/
def twoPow (exponent : Nat) : Nat := Nat.pow 2 exponent

/-- The power of ten with the given exponent. -/
def tenPow (exponent : Nat) : Nat := Nat.pow 10 exponent

end LoxCompiler
