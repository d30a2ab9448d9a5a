import PreviewLint.Document.Basic
import PreviewLint.Json.Basic

/-!
# Values under variables

A value of a document becomes a JSON value once the variables are known. A variable
that is not given is null, the name of an enum value is a text, and bytes are a list
of numbers.
-/

namespace PreviewLint

/-- The variables that are sent along with a document. -/
abbrev Variables := Fields Json

namespace Variables

def isTruthy (given : Variables) (name : String) : Bool :=
  (given.get? name).any Json.isTruthy

/-- The value of a variable; null if it is not given. -/
def valueOf (given : Variables) (name : String) : Json :=
  (given.get? name).getD .null

end Variables

namespace Value

variable (given : Variables)

mutual

/-- What a value stands for. -/
def resolve : Value → Json
  | .variable name => given.valueOf name
  | .null => .null
  | .number value => .number value
  | .string value => .string value
  | .boolean value => .bool value
  | .enum name => .string name
  | .binary bytes => .array (bytes.map fun byte => .number (.integer byte.toNat))
  | .list items => .array (resolveItems items)
  | .object ⟨entries⟩ => .object ⟨resolveEntries entries⟩

def resolveItems : List Value → List Json
  | [] => []
  | item :: items => resolve item :: resolveItems items

def resolveEntries {names : List String} : Entries Value names → Entries Json names
  | .nil => .nil
  | .cons name fresh value rest => .cons name fresh (resolve value) (resolveEntries rest)

end

end Value

end PreviewLint
