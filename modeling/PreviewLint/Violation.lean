import PreviewLint.Document.Basic

/-!
# Violations

Everything that can be wrong with a document: why a text is not one, and how a
document breaks the rules of the `preview` argument. Each cause carries what its
message needs, and `Violation.message` holds all the wording.
-/

namespace PreviewLint

/-- Why a text is not a document. -/
inductive ParseError where
  | noMatch (position : Position)
  /-- A number is beyond the largest double. -/
  | invalidNumber (position : Position)
  /-- Two fragments have one name. -/
  | duplicateFragment (name : String) (first second : Position)
  | tooDeep
  /-- A schema names two roots for one kind of operation. -/
  | multipleRoots (kind : OperationKind)
  | missingQueryRoot
  deriving DecidableEq, Repr

namespace ParseError

def message : ParseError → String
  | noMatch _ => "Syntax error"
  | invalidNumber _ => "Syntax error: invalid number"
  | duplicateFragment name _ _ => "Fragment " ++ name ++ " duplicated"
  | tooDeep => "recursion limit exceeded."
  | multipleRoots kind => "multiple " ++ kind.text ++ " roots in schema definition"
  | missingQueryRoot => "schema definition is missing query root"

def position : ParseError → Position
  | noMatch position | invalidNumber position | duplicateFragment _ position _ => position
  | tooDeep | multipleRoots _ | missingQueryRoot => .nowhere

def secondPosition? : ParseError → Option Position
  | duplicateFragment _ _ second => some second
  | _ => none

end ParseError

/-- What is wrong with a document, or with a text that should be one. -/
inductive Violation where
  /-- The text is not a document. -/
  | unreadable (cause : ParseError)
  /-- There is not exactly one operation. -/
  | operationCount
  /-- The operation is not a query. -/
  | operationType (position : Position)
  /-- The variable `preview` is not of the type Boolean. -/
  | variableType (position : Position)
  /-- A `preview` argument is neither null nor a boolean. -/
  | argumentType (field : String) (position : Position)
  /-- A `preview` argument and the variable `preview`, given by its text, disagree. -/
  | previewMismatch (field : String) (variableText : String) (position : Position)
  /-- A field at the root lacks the `preview` argument. -/
  | rootPreviewMissing (field : String) (position : Position)
  /-- Fragments spread each other in a circle; the names lead into it and once around. -/
  | fragmentCycle (names : List String)
  deriving DecidableEq, Repr

namespace Violation

def message : Violation → String
  | unreadable cause => cause.message
  | operationCount => "The document must have exactly 1 operation."
  | operationType _ => "The operation must be a query"
  | variableType _ => "The preview variable must be of type Boolean"
  | argumentType field _ => "Field with non-boolean preview argument value: " ++ field
  | previewMismatch field variableText _ =>
    "Preview mismatch for field '" ++ field ++ "'. The variable is '" ++ variableText ++
      "', but the argument has another value"
  | rootPreviewMissing field _ =>
    "Root field does not have a preview argument set to true: " ++ field
  | fragmentCycle names =>
    "A fragment cycle has been detected: " ++ String.intercalate "->" names

def position : Violation → Position
  | unreadable cause => cause.position
  | operationType position | variableType position | argumentType _ position
  | previewMismatch _ _ position | rootPreviewMissing _ position => position
  | operationCount | fragmentCycle _ => .nowhere

def secondPosition? : Violation → Option Position
  | unreadable cause => cause.secondPosition?
  | _ => none

end Violation

end PreviewLint
