import PreviewLint.Peg.Basic
import PreviewLint.Text.Escape

/-!
# Numerals

The parts of which numbers and escapes are written. They call no rule, so every
grammar can use them.
-/

namespace PreviewLint.Peg

variable {R : Type}

def digits : Peg R := many1 (char Char.isDigit)

/-- A number without fraction and exponent, which has no needless zero in front. -/
def integer : Peg R :=
  maybe (word "-") ++
    (word "0" ||| char (fun c => c.isDigit && c != '0') ++ many (char Char.isDigit))

def fraction : Peg R := word "." ++ digits

def exponent : Peg R :=
  (word "E" ||| word "e") ++ maybe (word "+" ||| word "-") ++ digits

def hexDigit : Peg R := char Escape.isHexDigit

/-- The first digit of a surrogate. -/
def surrogateMark : Peg R := char fun c => c == 'd' || c == 'D'

/-- The second digit of the first of two surrogates. -/
def highMark : Peg R := char fun c => "89abAB".toList.contains c

/-- The second digit of the second of two surrogates. -/
def lowMark : Peg R := char fun c => "cdefCDEF".toList.contains c

/-- Four hexadecimal digits that are not a surrogate. -/
def scalarDigits : Peg R :=
  absent (surrogateMark ++ (highMark ||| lowMark)) ++
    hexDigit ++ hexDigit ++ hexDigit ++ hexDigit

end PreviewLint.Peg
