import PreviewLint.Json.Basic
import PreviewLint.Text.Escape

/-!
# How JSON is written

This file says which texts stand for which values, without reading them. A text is composed: of
characters and escapes between quotes, of the parts of a number, of parts with commas between them
and brackets around them. `Json.Spells` bounds how deep arrays and objects are nested, and a
number is one only if it is not too large.

The members of an object are a list in which a name can be repeated, and `Json.Gathers` says what
its fields are then: a name has its first place and its last value.
-/

namespace PreviewLint

/-! ## Numbers -/

/-- Digits, at least one. -/
def Numeral.Digits (text : List Char) : Prop := text ≠ [] ∧ text.all Char.isDigit

/-- Digits with a sign in front, or without one. -/
def Numeral.Signed (text : List Char) : Prop :=
  ∃ sign digits, sign ∈ [[], ['+'], ['-']] ∧ Digits digits ∧ text = sign ++ digits

/-- The parts of a number as they can be written. -/
structure Numeral.WellFormed (numeral : Numeral) : Prop where
  whole : Digits numeral.whole
  /-- There is no needless zero in front. -/
  trimmed : numeral.whole.head? = some '0' → numeral.whole = ['0']
  fraction : numeral.fraction.all Char.isDigit
  exponent : numeral.exponent = [] ∨ Signed numeral.exponent

/-- What stands before a part that is written only if there is something of it. -/
def Numeral.marked (mark : Char) (part : List Char) : List Char :=
  if part = [] then [] else mark :: part

/-- The text of the parts of a number, with this mark before the exponent. -/
def Numeral.spelling (mark : Char) (numeral : Numeral) : List Char :=
  (if numeral.negative then ['-'] else []) ++ numeral.whole ++ marked '.' numeral.fraction ++
    marked mark numeral.exponent

/-- A text is that of the parts of a number. -/
def Numeral.Spells (numeral : Numeral) (text : List Char) : Prop :=
  numeral.WellFormed ∧ ∃ mark ∈ ['e', 'E'], text = numeral.spelling mark

namespace Json

/-! ## Quoted texts -/

/-- The letters that stand for characters after a backslash. -/
def letters : List (Char × Char) :=
  [('"', '"'), ('\\', '\\'), ('/', '/'), ('b', '\x08'), ('f', '\x0c'), ('n', '\n'), ('r', '\r'),
    ('t', '\t')]

/-- Four hexadecimal digits that stand for a code unit. -/
inductive SpellsUnit : List Char → Nat → Prop where
  | digits {a b c d : Char} (hexadecimal : [a, b, c, d].all Escape.isHexDigit) :
      SpellsUnit [a, b, c, d] (Escape.codeUnit a b c d)

/-- How a character is written between quotes. -/
inductive SpellsCharacter : List Char → Char → Prop where
  | plain {character : Char} (visible : ' ' ≤ character) (unquoted : character ≠ '"')
      (unescaped : character ≠ '\\') : SpellsCharacter [character] character
  | letter {letter character : Char} (listed : (letter, character) ∈ letters) :
      SpellsCharacter ['\\', letter] character
  | unit {digits : List Char} {unit : Nat} (written : SpellsUnit digits unit)
      (scalar : ¬(0xD800 ≤ unit ∧ unit < 0xE000)) :
      SpellsCharacter ('\\' :: 'u' :: digits) (Char.ofNat unit)
  /-- Two surrogates stand for one character. -/
  | pair {first second : List Char} {high low : Nat} (written : SpellsUnit first high)
      (leads : 0xD800 ≤ high ∧ high < 0xDC00) (written' : SpellsUnit second low)
      (trails : 0xDC00 ≤ low ∧ low < 0xE000) :
      SpellsCharacter ('\\' :: 'u' :: first ++ '\\' :: 'u' :: second)
        (Char.ofNat (0x10000 + (high - 0xD800) * 0x400 + (low - 0xDC00)))

/-- How some characters are written between quotes. -/
inductive SpellsCharacters : List Char → List Char → Prop where
  | nil : SpellsCharacters [] []
  | cons {unit text : List Char} {character : Char} {characters : List Char}
      (first : SpellsCharacter unit character) (others : SpellsCharacters text characters) :
      SpellsCharacters (unit ++ text) (character :: characters)

/-- A text in quotes. -/
inductive Quotes : List Char → String → Prop where
  | quotes {inner characters : List Char} (inside : SpellsCharacters inner characters) :
      Quotes ('"' :: inner ++ ['"']) (String.ofList characters)

/-! ## Values -/

/-- Nothing but blanks. -/
def Blank (text : List Char) : Prop := text ⊆ [' ', '\t', '\n', '\r']

/-- A value without a value inside it. -/
inductive SpellsScalar : List Char → Json → Prop where
  | null : SpellsScalar "null".toList null
  | true : SpellsScalar "true".toList (bool true)
  | false : SpellsScalar "false".toList (bool false)
  | string {text : List Char} {value : String} (quotes : Quotes text value) :
      SpellsScalar text (string value)
  | number {text : List Char} {numeral : Numeral} {value : Number} (written : numeral.Spells text)
      (small : numeral.value? = some value) : SpellsScalar text (number value)

section Enclosed

variable {α : Type} (part : List Char → α → Prop)

/-- A part with blanks around it. -/
def Padded (text : List Char) (value : α) : Prop :=
  ∃ before inner after, Blank before ∧ part inner value ∧ Blank after ∧
    text = before ++ inner ++ after

/-- Some parts with commas between them. -/
inductive Listed : List Char → List α → Prop where
  | last {text : List Char} {value : α} (here : Padded part text value) : Listed text [value]
  | cons {text others : List Char} {value : α} {values : List α} (here : Padded part text value)
      (more : Listed others values) : Listed (text ++ ',' :: others) (value :: values)

/-- What stands between two brackets: some parts, or nothing but blanks. -/
inductive Enclosed : List Char → List α → Prop where
  | nothing {text : List Char} (blank : Blank text) : Enclosed text []
  | parts {text : List Char} {values : List α} (listed : Listed part text values) :
      Enclosed text values

end Enclosed

section Values

variable (inside : List Char → Json → Prop)

/-- A name and its value. -/
inductive SpellsMember : List Char → String × Json → Prop where
  | member {name before after text : List Char} {key : String} {value : Json}
      (quotes : Quotes name key) (blank : Blank before) (blank' : Blank after)
      (written : inside text value) :
      SpellsMember (name ++ before ++ ':' :: after ++ text) (key, value)

/-- The fields of an object with these members. -/
structure Gathers (fields : Fields Json) (members : List (String × Json)) : Prop where
  /-- A name stands where it is first. -/
  names_eq : fields.names = (members.map Prod.fst).eraseDups
  /-- A name has the value that it has last. -/
  get?_eq : ∀ name, fields.get? name = members.reverse.lookup name

/-- A value with other values inside it. -/
inductive SpellsCompound : List Char → Json → Prop where
  | array {text : List Char} {items : List Json} (enclosed : Enclosed inside text items) :
      SpellsCompound ('[' :: text ++ [']']) (array items)
  | object {text : List Char} {members : List (String × Json)} {fields : Fields Json}
      (enclosed : Enclosed (SpellsMember inside) text members)
      (gathers : Gathers fields members) :
      SpellsCompound ('\x7b' :: text ++ ['\x7d']) (object fields)

end Values

/-- A text stands for a value, with at most so many arrays and objects nested in it. -/
def Spells : Nat → List Char → Json → Prop
  | 0, text, json => SpellsScalar text json
  | inside + 1, text, json => SpellsScalar text json ∨ SpellsCompound (Spells inside) text json

/-- A text stands for a value, with blanks around it and nested no deeper than it may be. -/
def Spelled (source : String) (json : Json) : Prop := Padded (Spells depthLimit) source.toList json

end Json

end PreviewLint
