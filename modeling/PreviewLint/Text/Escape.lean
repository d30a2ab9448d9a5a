/-!
# Escapes in quoted texts

A backslash in a quoted text begins an escape: a letter for a control character,
the character itself, or the letter `u` and four hexadecimal digits for a code
unit. Two code units that are surrogates of each other stand for one character.
-/

namespace PreviewLint.Escape

def isHexDigit (character : Char) : Bool :=
  character.isDigit || ('a' ≤ character && character ≤ 'f') ||
    ('A' ≤ character && character ≤ 'F')

def hexValue (digit : Char) : Nat :=
  if digit.isDigit then digit.toNat - '0'.toNat
  else if 'a' ≤ digit then digit.toNat - 'a'.toNat + 10
  else digit.toNat - 'A'.toNat + 10

/-- The code unit that four hexadecimal digits stand for. -/
def codeUnit (first second third fourth : Char) : Nat :=
  ((hexValue first * 16 + hexValue second) * 16 + hexValue third) * 16 + hexValue fourth

/-- The first of two surrogates. -/
def isHighSurrogate (unit : Nat) : Bool := 0xD800 ≤ unit && unit < 0xDC00

/-- The second of two surrogates. -/
def isLowSurrogate (unit : Nat) : Bool := 0xDC00 ≤ unit && unit < 0xE000

/-- The character that two surrogates stand for. -/
def ofSurrogates (high low : Nat) : Char :=
  Char.ofNat (0x10000 + (high - 0xD800) * 0x400 + (low - 0xDC00))

/-- The character that a letter after a backslash stands for. -/
def ofLetter : Char → Char
  | 'b' => '\x08'
  | 'f' => '\x0c'
  | 'n' => '\n'
  | 'r' => '\r'
  | 't' => '\t'
  | character => character

/-- Replaces the escapes of a text by the characters that they stand for. -/
def decode : List Char → List Char
  | '\\' :: 'u' :: a :: b :: c :: d :: '\\' :: 'u' :: e :: f :: g :: h :: rest =>
    if isHighSurrogate (codeUnit a b c d) then
      ofSurrogates (codeUnit a b c d) (codeUnit e f g h) :: decode rest
    else Char.ofNat (codeUnit a b c d) :: decode ('\\' :: 'u' :: e :: f :: g :: h :: rest)
  | '\\' :: 'u' :: a :: b :: c :: d :: rest => Char.ofNat (codeUnit a b c d) :: decode rest
  | '\\' :: letter :: rest => ofLetter letter :: decode rest
  | character :: rest => character :: decode rest
  | [] => []

end PreviewLint.Escape
