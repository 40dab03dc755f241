import LoxCompiler.Number.Binary64

/-! # Shortest decimals

A number is written with the fewest digits that read back as the same number, and of those
with the nearest. All digits are positional: there is no exponent and, for whole numbers, no
point.
-/

namespace LoxCompiler

/-- How many decimal digits a natural number has, none for zero. -/
def digitCount (n : Nat) : Nat := if n = 0 then 0 else (Nat.toDigits 10 n).length

namespace Binary64

/-- The reals that round to a positive finite number, on a grid of decimals: `value`, `low`
and `high` are the number and the two ends, in units of `1 / unit` grid steps. The ends belong
to the interval exactly if the mantissa is even. -/
structure Interval where
  low : Nat
  value : Nat
  high : Nat
  unit : Nat
  closed : Bool

/-- The rounding interval of `mantissa * 2 ^ exponent` on the grid of step `10 ^ step`.
The number is scaled by four, so that both ends are whole. -/
def Interval.on (step : Int) (mantissa : Nat) (exponent : Int) (closerBelow : Bool) : Interval :=
  let quarter := exponent - 2
  let scale := twoPow quarter.toNat * tenPow (-step).toNat
  { low := (4 * mantissa - if closerBelow then 1 else 2) * scale
    value := 4 * mantissa * scale
    high := (4 * mantissa + 2) * scale
    unit := twoPow (-quarter).toNat * tenPow step.toNat
    closed := mantissa % 2 = 0 }

/-- Whether a grid point reads back as the number. -/
def Interval.admits (i : Interval) (point : Nat) : Bool :=
  let position := point * i.unit
  if i.closed then decide (i.low ≤ position) && decide (position ≤ i.high)
  else decide (i.low < position) && decide (position < i.high)

/-- The grid point nearest to the number among those of its two neighbours that read back as
it. Of two equally near ones it is the upper. -/
def Interval.nearest? (i : Interval) : Option Nat :=
  let below := i.value / i.unit
  match i.admits below, i.admits (below + 1) with
  | false, false => none
  | true, false => some below
  | false, true => some (below + 1)
  | true, true => if 2 * (i.value % i.unit) < i.unit then some below else some (below + 1)

/-- The exponent of the least power of ten above `mantissa * 2 ^ exponent`, for a positive
number. -/
def decimalMagnitude (mantissa : Nat) (exponent : Int) : Int :=
  let numerator := mantissa * twoPow exponent.toNat
  let denominator := twoPow (-exponent).toNat
  if denominator ≤ numerator then digitCount (numerator / denominator)
  else 1 - (digitCount ((denominator - 1) / numerator) : Int)

/-- The digits and the decimal exponent of the shortest decimal that reads back. Seventeen
digits always suffice. -/
def shortest (mantissa : Nat) (exponent : Int) (closerBelow : Bool) : Nat × Int :=
  let magnitude := decimalMagnitude mantissa exponent
  let attempt := fun (digits : Nat) =>
    let step := magnitude - digits
    (Interval.on step mantissa exponent closerBelow).nearest?.map (·, step)
  ((List.range' 1 17).findSome? attempt).getD (0, 0)

/-- Write `coefficient * 10 ^ exponent` in positional notation, without zeros at the end of a
fraction. -/
def positional (coefficient : Nat) (exponent : Int) : String :=
  let digits := Nat.toDigits 10 coefficient
  let zeros := fun (n : Int) => List.replicate n.toNat '0'
  if 0 ≤ exponent then String.ofList (digits ++ zeros exponent)
  else
    let significant := (digits.reverse.dropWhile (· == '0')).reverse
    let point := digits.length + exponent
    if point ≤ 0 then String.ofList ('0' :: '.' :: zeros (-point) ++ significant)
    else
      let whole := digits.take point.toNat
      match significant.drop point.toNat with
      | [] => String.ofList whole
      | fractional => String.ofList (whole ++ '.' :: fractional)

/-- The text of a number. Infinity and zero carry their sign, and "NaN" has none. -/
def toText (x : Binary64) : String :=
  let sign := if x.negative then "-" else ""
  match x.shape with
  | .notANumber => "NaN"
  | .infinite => sign ++ "inf"
  | .finite 0 _ => sign ++ "0"
  | .finite mantissa exponent =>
      let (coefficient, power) := shortest mantissa exponent x.closerBelow
      sign ++ positional coefficient power

end Binary64

end LoxCompiler
