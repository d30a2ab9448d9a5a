import PreviewLint.Decimal.Shortest

/-!
# Numbers and their texts

A number is an integer of at most sixty-four bits or a double. Which of the two
a literal stands for depends on how it is written: a literal with a fraction or
an exponent is a double, and so are negative zero and integers that are out of
range. A literal beyond the largest double stands for no number.

A double is computed in doubles, from as many digits as an integer can hold. It is
rounded more than once, so it need not be the double that is nearest to the literal.

An integer is written in digits. A double is written with the fewest digits
that read back, laid out by `Number.layout`.
-/

namespace PreviewLint

inductive Number where
  | integer (value : Int)
  | double (value : Float)

namespace Number

/-- One more digit after those of a number. -/
def append (value : Nat) (digit : Char) : Nat := 10 * value + (digit.toNat - '0'.toNat)

/-- The number that a list of decimal digits stands for. -/
def ofDigits (digits : List Char) : Nat := digits.foldl append 0

/--
Reads digits after those of a significand as long as it has at most sixty-four bits. Also
returns the number of digits that are left.
-/
def extend (significand : Nat) : List Char → Nat × Nat
  | [] => (significand, 0)
  | digit :: digits =>
    let longer := append significand digit
    if longer < Nat.pow 2 64 then extend longer digits else (significand, digits.length + 1)

/-- The exponent of the largest power of ten that is a double. -/
def greatestPower : Nat := 308

def powerOfTen (exponent : Nat) : Float := Float.ofScientific 1 false exponent

/-- A double times a power of ten, unless it is too large. -/
def scaled? (value : Float) (exponent : Int) : Option Float :=
  if exponent.natAbs ≤ greatestPower then
    if exponent < 0 then some (value / powerOfTen exponent.natAbs)
    else
      let product := value * powerOfTen exponent.natAbs
      if product.isInf then none else some product
  else if value == 0.0 then some value
  else if exponent < 0 then scaled? (value / powerOfTen greatestPower) (exponent + greatestPower)
  else none
termination_by exponent.natAbs
decreasing_by
  simp only [greatestPower] at *
  omega

/-- The exponent that follows its mark in a literal. -/
def exponentOf : List Char → Int
  | '-' :: digits => -(ofDigits digits : Int)
  | '+' :: digits => ofDigits digits
  | digits => ofDigits digits

/-- Whether an integer has at most sixty-four bits, with or without a sign. -/
def inRange (value : Int) : Bool :=
  -(Nat.pow 2 63 : Int) ≤ value && value < (Nat.pow 2 64 : Int)

end Number

/-- The parts of a literal. A fraction and an exponent that are not written are empty. -/
structure Numeral where
  negative : Bool
  whole : List Char
  fraction : List Char
  /-- What follows the mark of the exponent: maybe a sign, and digits. -/
  exponent : List Char
  deriving DecidableEq, Repr

namespace Numeral

/-- Takes a literal apart. -/
def ofLiteral (literal : List Char) : Numeral :=
  let negative := literal.head? == some '-'
  let unsigned := if negative then literal.drop 1 else literal
  let tail := unsigned.dropWhile Char.isDigit
  { negative
    whole := unsigned.takeWhile Char.isDigit
    fraction := if tail.head? == some '.' then (tail.drop 1).takeWhile Char.isDigit else []
    exponent := (tail.dropWhile fun c => c != 'e' && c != 'E').drop 1 }

/-- The integer that the parts stand for, if neither a fraction nor an exponent is written. -/
def integer? (numeral : Numeral) : Option Int :=
  let value : Int :=
    if numeral.negative then -(Number.ofDigits numeral.whole : Int)
    else Number.ofDigits numeral.whole
  let isInteger := numeral.fraction.isEmpty && numeral.exponent.isEmpty
  if isInteger && Number.inRange value && !(numeral.negative && value = 0) then some value
  else none

/-- The double that the parts stand for, unless it is too large. -/
def double? (numeral : Numeral) : Option Float :=
  let (whole, dropped) := Number.extend 0 numeral.whole
  let (significand, ignored) := Number.extend whole numeral.fraction
  let places := numeral.fraction.length - ignored
  let exponent := Number.exponentOf numeral.exponent + dropped - places
  (Number.scaled? significand.toUInt64.toFloat exponent).map fun magnitude =>
    if numeral.negative then -magnitude else magnitude

/-- The number that the parts stand for, unless it is too large. -/
def value? (numeral : Numeral) : Option Number :=
  match numeral.integer? with
  | some value => some (.integer value)
  | none => numeral.double?.map .double

end Numeral

namespace Number

/--
The number that a literal stands for. The literal is an optional minus sign, digits, an
optional fraction and an optional exponent.
-/
def ofLiteral? (literal : List Char) : Option Number := (Numeral.ofLiteral literal).value?

/-- Which exponents of the first digit are written without an exponent. -/
structure Layout where
  least : Int
  greatest : Int

/--
Doubles from `0.00001` up to sixteen digits before the point are written without an
exponent, and always with a fraction; other exponents are written with their sign.
-/
def layout : Layout := ⟨-5, 15⟩

namespace Layout

/-- A decimal without an exponent: its digits, and the exponent of the first of them. -/
def positional (digits : List Char) (exponent : Int) : List Char :=
  if exponent < 0 then
    ['0', '.'] ++ List.replicate (-exponent - 1).toNat '0' ++ digits
  else
    let places := exponent.toNat + 1
    let fraction := digits.drop places
    digits.take places ++ List.replicate (places - digits.length) '0' ++ ['.'] ++
      (if fraction.isEmpty then ['0'] else fraction)

/-- A decimal with an exponent: its digits, and the exponent of the first of them. -/
def scientific (digits : List Char) (exponent : Int) : List Char :=
  let fraction := digits.drop 1
  digits.take 1 ++ (if fraction.isEmpty then [] else '.' :: fraction) ++ ['e'] ++
    [if exponent < 0 then '-' else '+'] ++ Nat.toDigits 10 exponent.natAbs

def write (layout : Layout) (decimal : Decimal) : List Char :=
  let written := Nat.toDigits 10 decimal.digits
  let digits := (written.reverse.dropWhile (· == '0')).reverse
  let exponent := decimal.exponent + (written.length : Int) - 1
  if layout.least ≤ exponent && exponent ≤ layout.greatest then positional digits exponent
  else scientific digits exponent

end Layout

/-- The text of a finite double. -/
def doubleText (value : Float) : String :=
  let sign := if value.toBits.toNat < Nat.pow 2 63 then "" else "-"
  let dyadic := Dyadic.ofFloat value
  if dyadic.mantissa = 0 then sign ++ "0.0"
  else sign ++ String.ofList (layout.write dyadic.shortest)

def text : Number → String
  | integer value => toString value
  | double value => doubleText value

end Number

end PreviewLint
