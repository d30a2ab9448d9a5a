import PreviewLint.Json.Basic
import PreviewLint.Text.Escape

/-!
# Reading JSON

A JSON text is one value, with blanks around it and between its parts. There
are no comments, no trailing commas and no characters below the space in quoted
texts, and an escaped surrogate needs its partner. A text that nests arrays and
objects too deep, or that holds a number beyond the largest double, is refused
like one that is not written as JSON, also if this is in a value that another
value of the same name replaces.

Every reader takes what it reads from the beginning of a text and returns it with
the rest of the text. A repetition is tried as often as there are characters, which
is more often than it can succeed.

A name that is repeated in an object keeps its first place and has its last value.
-/

namespace PreviewLint.Json

/-- Reads something from the beginning of a text, and returns what is left of the text. -/
abbrev Reader (α : Type) := List Char → Option (α × List Char)

namespace Reader

/-- Blanks: a space, a tab or a line end. -/
def isBlank (character : Char) : Bool :=
  character == ' ' || character == '\t' || character == '\n' || character == '\r'

def afterBlanks (text : List Char) : List Char := text.dropWhile isBlank

/-! ## Numbers -/

/-- At least one digit, and as many as there are. -/
def digits : Reader (List Char) := fun text =>
  match text.span Char.isDigit with
  | ([], _) => none
  | (found, rest) => some (found, rest)

/-- The digits before the point, without a needless zero in front. -/
def whole : Reader (List Char)
  | '0' :: rest => some (['0'], rest)
  | text => digits text

/-- The digits after the point, if there is a point. -/
def fraction : Reader (List Char)
  | '.' :: rest => digits rest
  | text => some ([], text)

/-- What follows the mark of an exponent: maybe a sign, and digits. -/
def signedDigits : Reader (List Char)
  | '+' :: rest => (digits rest).map fun (found, rest) => ('+' :: found, rest)
  | '-' :: rest => (digits rest).map fun (found, rest) => ('-' :: found, rest)
  | text => digits text

/-- The exponent, if there is a mark for one. -/
def exponent : Reader (List Char)
  | 'e' :: rest => signedDigits rest
  | 'E' :: rest => signedDigits rest
  | text => some ([], text)

def unsigned (negative : Bool) : Reader Numeral := fun text => do
  let (whole, text) ← whole text
  let (fraction, text) ← fraction text
  let (exponent, rest) ← exponent text
  return ({ negative, whole, fraction, exponent }, rest)

def numeral : Reader Numeral
  | '-' :: text => unsigned true text
  | text => unsigned false text

/-! ## Quoted texts -/

/-- The four digits of a code unit. -/
def codeUnit : Reader Nat
  | a :: b :: c :: d :: rest =>
    if [a, b, c, d].all Escape.isHexDigit then some (Escape.codeUnit a b c d, rest) else none
  | _ => none

/-- The second of two surrogates. -/
def partner : Reader Nat
  | '\\' :: 'u' :: text => codeUnit text
  | _ => none

/-- A code unit that is no surrogate, or two surrogates, after the mark of the first one. -/
def codeUnits : Reader Char := fun text => do
  let (unit, rest) ← codeUnit text
  if Escape.isHighSurrogate unit then
    let (low, rest) ← partner rest
    if Escape.isLowSurrogate low then some (Escape.ofSurrogates unit low, rest) else none
  else if Escape.isLowSurrogate unit then none
  else some (Char.ofNat unit, rest)

/-- A character of a quoted text, which is written as it is or as an escape. -/
def character : Reader Char
  | '\\' :: 'u' :: text => codeUnits text
  | '\\' :: letter :: rest =>
    if "\"\\/bfnrt".toList.contains letter then some (Escape.ofLetter letter, rest) else none
  | first :: rest =>
    if ' ' ≤ first && first != '"' && first != '\\' then some (first, rest) else none
  | [] => none

/-- At most `count` characters and the quote that follows them. -/
def characters : Nat → Reader (List Char)
  | _, '"' :: rest => some ([], rest)
  | 0, _ => none
  | count + 1, text => do
    let (first, text) ← character text
    let (others, rest) ← characters count text
    return (first :: others, rest)

/-- A quoted text. -/
def quoted : Reader String
  | '"' :: text => (characters text.length text).map fun (found, rest) =>
    (String.ofList found, rest)
  | _ => none

/-! ## Values -/

def scalar : Reader Json
  | 'n' :: 'u' :: 'l' :: 'l' :: rest => some (null, rest)
  | 't' :: 'r' :: 'u' :: 'e' :: rest => some (bool true, rest)
  | 'f' :: 'a' :: 'l' :: 's' :: 'e' :: rest => some (bool false, rest)
  | '"' :: text => (quoted ('"' :: text)).map fun (found, rest) => (string found, rest)
  | text => do
    let (numeral, rest) ← numeral text
    let value ← numeral.value?
    return (number value, rest)

section Enclosed

variable {α : Type} (part : Reader α) (closing : Char)

/-- At least one part and at most `count`, with commas between them, and the closing bracket. -/
def listed : Nat → Reader (List α)
  | 0, _ => none
  | count + 1, text => do
    let (first, text) ← part (afterBlanks text)
    match afterBlanks text with
    | ',' :: text =>
      let (others, rest) ← listed count text
      return (first :: others, rest)
    | last :: rest => if last = closing then some ([first], rest) else none
    | [] => none

/-- Any number of parts with commas between them, and the closing bracket. -/
def enclosed : Reader (List α) := fun text =>
  match afterBlanks text with
  | [] => none
  | first :: rest =>
    if first = closing then some ([], rest) else listed part closing text.length text

end Enclosed

/-- A name and its value, of which `inside` reads the value. -/
def member (inside : Reader Json) : Reader (String × Json) := fun text => do
  let (name, text) ← quoted text
  match afterBlanks text with
  | ':' :: text =>
    let (value, rest) ← inside (afterBlanks text)
    return ((name, value), rest)
  | _ => none

/-- A value in which at most this many arrays and objects are nested. -/
def value : Nat → Reader Json
  | inside + 1, '[' :: text =>
    (enclosed (value inside) ']' text).map fun (items, rest) => (array items, rest)
  | inside + 1, '\x7b' :: text =>
    (enclosed (member (value inside)) '\x7d' text).map fun (fields, rest) =>
      (object (.ofList fields), rest)
  | _, text => scalar text

end Reader

def parse? (source : String) : Option Json := do
  let (value, rest) ← Reader.value depthLimit (Reader.afterBlanks source.toList)
  if (Reader.afterBlanks rest).isEmpty then some value else none

end PreviewLint.Json
