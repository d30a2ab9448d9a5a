import PreviewLint.Preview.Reachability
import PreviewLint.Preview.Resolution
import PreviewLint.Violation

/-!
# The rules of the preview argument

The variable `preview` tells whether drafts are requested. The rules are:

* the operation is a query, and its variable `preview` has the type Boolean;
* a `preview` argument is null or a boolean, and as truthy as the variable;
* while previewing, every field at the root of the operation, or of a fragment
  that is used at the root of the operation, has a truthy `preview` argument.

Where a field repeats the argument, the first one counts. A document is checked
node by node in the order of a walk, and the first violation ends the check.
-/

namespace PreviewLint

/-- The name of the argument and of the variable. -/
def previewName : String := "preview"

/-- Only queries are allowed. -/
def Operation.check (operation : Operation) : Except Violation Unit :=
  if operation.kind = .query then .ok () else .error (.operationType operation.position)

/-- Whether a type is the Boolean type, with or without null. -/
def TypeReference.isBoolean : TypeReference → Bool
  | .named name _ => name == "Boolean"
  | .list _ _ => false

/-- The variable `preview` is a boolean. -/
def VariableDefinition.check (definition : VariableDefinition) : Except Violation Unit :=
  if definition.name = previewName && !definition.type.isBoolean then
    .error (.variableType definition.position)
  else .ok ()

namespace Variables

/-- Whether drafts are requested. -/
def previewing (given : Variables) : Bool := given.isTruthy previewName

end Variables

namespace Field

/-- The first `preview` argument of a field, resolved. -/
def previewArgument? (field : Field) (given : Variables) : Option Json :=
  (field.arguments.find? (·.1 == previewName)).map fun argument => argument.2.resolve given

/-- A `preview` argument is null or a boolean, and as truthy as the variable. -/
def checkArgument (field : Field) (given : Variables) : Except Violation Unit :=
  match field.previewArgument? given with
  | none => .ok ()
  | some argument =>
    if !argument.isSwitch then .error (.argumentType field.name field.position)
    else if argument.isTruthy != given.previewing then
      .error (.previewMismatch field.name (given.valueOf previewName).text field.position)
    else .ok ()

/-- Whether a field is to have a `preview` argument if it stands at the root. -/
def lacksPreview (field : Field) (given : Variables) : Bool :=
  given.previewing && !(field.previewArgument? given).any Json.isTruthy

end Field

/-- A check of one node of a document, which may need to search for the usages of fragments. -/
abbrev Check := ExceptT Violation (StateM Reachability)

namespace Check

/-- A check that needs no search. -/
def ofExcept (result : Except Violation Unit) : Check Unit := ExceptT.mk (pure result)

/-- A search whose cycles are violations. -/
def ofSearch {α : Type} (search : Reachability.Search α) : Check α :=
  ExceptT.mk do
    let result ← search.run
    return result.mapError .fragmentCycle

/-- Whether a field below the given nodes stands at the root of an operation in the end. -/
def standsAtRoot (above : List Ancestor) : Check Bool :=
  match Placement.ofAncestors above with
  | .nested => pure false
  | .root (.operation _) => pure true
  | .root (.fragment fragment) => ofSearch (Reachability.isUsedAtRoot fragment.name)

def field (given : Variables) (field : Field) (above : List Ancestor) : Check Unit := do
  ofExcept (field.checkArgument given)
  if field.lacksPreview given then
    if ← standsAtRoot above then
      throw (.rootPreviewMissing field.name field.position)

def node (given : Variables) (node : Node) (above : List Ancestor) : Check Unit :=
  match node with
  | .operation operation => ofExcept operation.check
  | .variable definition => ofExcept definition.check
  | .field field => Check.field given field above
  | .fragment _ | .inline _ | .spread _ => pure ()

end Check

/-- Checks a document under the given variables. -/
def Document.validate (document : Document) (given : Variables) : Except Violation Unit :=
  if document.operations.length ≠ 1 then .error .operationCount
  else ((document.walk (Check.node given)).run.run (.ofDocument document)).1

end PreviewLint
