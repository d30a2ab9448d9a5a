/-!
# Shortest decimals

A finite double stands for every real number that rounds to it. Among the
decimals that do, `Dyadic.shortest` takes one with the fewest digits, and of
those the one nearest to the double; if two are, the one with the even last
digit. All comparisons are exact, in natural numbers: no double arithmetic is
involved.

The decimals with a given number of digits form a grid, and the double has two
neighbours on it. If any point of the grid rounds to the double, one of these
two does, so the search looks at the two neighbours on finer and finer grids.
Seventeen digits are always enough.
-/

namespace PreviewLint

/-- A natural number of tens: `digits * 10 ^ exponent`. -/
structure Decimal where
  digits : Nat
  exponent : Int
  deriving DecidableEq, Repr

namespace Decimal

def digitCount (number : Nat) : Nat := (Nat.toDigits 10 number).length

end Decimal

/-- A positive double: `mantissa * 2 ^ exponent`. -/
structure Dyadic where
  mantissa : Nat
  exponent : Int
  /-- The next double below is only half as far away as the next one above. -/
  narrowBelow : Bool
  deriving DecidableEq, Repr

namespace Dyadic

/-- The magnitude of a finite double. -/
def ofFloat (number : Float) : Dyadic :=
  let bits := number.toBits.toNat
  let biased : Nat := bits / Nat.pow 2 52 % Nat.pow 2 11
  let fraction := bits % Nat.pow 2 52
  if biased = 0 then ⟨fraction, -1074, false⟩
  else ⟨fraction + Nat.pow 2 52, (biased : Int) - 1075, fraction = 0 && 1 < biased⟩

/-- The exponent of the first digit of a positive double. -/
def magnitude (number : Dyadic) : Int :=
  let numerator := number.mantissa * Nat.pow 2 number.exponent.toNat
  let denominator := Nat.pow 2 (-number.exponent).toNat
  if denominator ≤ numerator then Decimal.digitCount (numerator / denominator) - 1
  else
    let count := Decimal.digitCount (denominator / numerator)
    if numerator * Nat.pow 10 (count - 1) = denominator then 1 - count else -count

/-- The multiple of a quarter of the last binary place that `point` steps of `10 ^ step` make. -/
def scaledPoint (number : Dyadic) (step : Int) (point : Nat) : Nat :=
  point * Nat.pow 10 step.toNat * Nat.pow 2 (2 - number.exponent).toNat

/-- Quarters of the last binary place, on the scale of `scaledPoint`. -/
def scaledQuarters (number : Dyadic) (step : Int) (quarters : Nat) : Nat :=
  quarters * Nat.pow 10 (-step).toNat * Nat.pow 2 (number.exponent - 2).toNat

/-- Whether `point * 10 ^ step` rounds to the double; a half goes to the even mantissa. -/
def contains (number : Dyadic) (step : Int) (point : Nat) : Bool :=
  let quarters := 4 * number.mantissa
  let low := number.scaledQuarters step (quarters - if number.narrowBelow then 1 else 2)
  let high := number.scaledQuarters step (quarters + 2)
  let place := number.scaledPoint step point
  if number.mantissa % 2 = 0 then low ≤ place && place ≤ high else low < place && place < high

/-- The nearest point of the grid of step `10 ^ step` that rounds to the double. -/
def onGrid? (number : Dyadic) (step : Int) : Option Nat :=
  let exact := number.scaledQuarters step (4 * number.mantissa)
  let below := exact / number.scaledPoint step 1
  let above := below + 1
  match number.contains step below, number.contains step above with
  | true, true =>
    let excess := exact - number.scaledPoint step below
    let lack := number.scaledPoint step above - exact
    if excess < lack || (excess = lack && below % 2 = 0) then some below else some above
  | true, false => some below
  | false, true => some above
  | false, false => none

/-- The nearest of the decimals with the fewest digits that round to a positive double. -/
def shortest (number : Dyadic) : Decimal :=
  let magnitude := number.magnitude
  let found := (List.range 17).findSome? fun (places : Nat) =>
    (number.onGrid? (magnitude - places)).map fun point => ⟨point, magnitude - places⟩
  found.getD ⟨number.mantissa, 0⟩

end Dyadic

end PreviewLint
