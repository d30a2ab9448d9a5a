import PreviewLint.Decimal.Number
import PreviewLint.Fields

/-!
# JSON values and their texts

The values that variables hold. The fields of an object are in order, and
`Json.text` writes a value without any blanks.
-/

namespace PreviewLint

inductive Json where
  | null
  | bool (value : Bool)
  | number (value : Number)
  | string (value : String)
  | array (items : List Json)
  | object (fields : Fields Json)

namespace Json

/-- Everything but null and false is truthy, also zero and the empty text. -/
def isTruthy : Json → Bool
  | null => false
  | bool value => value
  | _ => true

/-- Whether a value can be the value of a switch: null or a boolean. -/
def isSwitch : Json → Bool
  | null | bool _ => true
  | _ => false

/-- Arrays and objects can be nested this deep in a text. -/
def depthLimit : Nat := 127

/-- A character of a quoted text: quotes, backslashes and control characters are escaped. -/
def escaped (character : Char) : String :=
  match character with
  | '"' => "\\\""
  | '\\' => "\\\\"
  | '\x08' => "\\b"
  | '\x0c' => "\\f"
  | '\n' => "\\n"
  | '\r' => "\\r"
  | '\t' => "\\t"
  | _ =>
    if character.toNat < 0x20 then
      "\\u00" ++ String.ofList [Nat.digitChar (character.toNat / 16),
        Nat.digitChar (character.toNat % 16)]
    else character.toString

def quoted (text : String) : String :=
  "\"" ++ String.join (text.toList.map escaped) ++ "\""

mutual

/-- The text of a value, without blanks. -/
def text : Json → String
  | null => "null"
  | bool true => "true"
  | bool false => "false"
  | number value => value.text
  | string value => quoted value
  | array items => "[" ++ String.intercalate "," (itemTexts items) ++ "]"
  | object ⟨entries⟩ => "\x7b" ++ String.intercalate "," (entryTexts entries) ++ "\x7d"

def itemTexts : List Json → List String
  | [] => []
  | item :: items => item.text :: itemTexts items

def entryTexts {names : List String} : Entries Json names → List String
  | .nil => []
  | .cons name _ value rest => (quoted name ++ ":" ++ value.text) :: entryTexts rest

end

end Json

end PreviewLint
