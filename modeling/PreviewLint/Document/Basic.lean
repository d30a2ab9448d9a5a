import PreviewLint.Decimal.Number
import PreviewLint.Fields
import PreviewLint.Text.Position

/-!
# Documents

The tree of a GraphQL document. Lists keep the order of the text and whatever is
repeated in it; the fields of an object value are the exception, since there a
name that is repeated keeps its first place and has its last value.

A field, an inline fragment and the selections below them are kept apart: `Field`
and `InlineFragment` hold what is written about the node itself, and `Selection`
ties them to the selections inside.
-/

namespace PreviewLint

/-- A value as it is written in a document. -/
inductive Value where
  | variable (name : String)
  | null
  | number (value : Number)
  | string (value : String)
  | boolean (value : Bool)
  | enum (name : String)
  | binary (bytes : List UInt8)
  | list (items : List Value)
  | object (fields : Fields Value)

/-- Arguments, in order and with repetitions. -/
abbrev Arguments := List (String × Value)

structure Directive where
  name : String
  arguments : Arguments

/-- A field, apart from the selections below it. -/
structure Field where
  position : Position
  aliasName : Option String
  name : String
  arguments : Arguments
  directives : List Directive

/-- An inline fragment, apart from the selections below it. -/
structure InlineFragment where
  position : Position
  typeCondition : Option String
  directives : List Directive

structure Spread where
  position : Position
  name : String
  directives : List Directive

inductive Selection where
  | field (field : Field) (selections : List Selection)
  | inline (fragment : InlineFragment) (selections : List Selection)
  | spread (spread : Spread)

inductive TypeReference where
  | named (name : String) (nonNull : Bool)
  | list (item : TypeReference) (nonNull : Bool)
  deriving DecidableEq, Repr

namespace TypeReference

def mark (nonNull : Bool) : String := if nonNull then "!" else ""

def text : TypeReference → String
  | named name nonNull => name ++ mark nonNull
  | list item nonNull => "[" ++ item.text ++ "]" ++ mark nonNull

end TypeReference

inductive OperationKind where
  | query
  | mutation
  | subscription
  deriving DecidableEq, Repr

namespace OperationKind

def text : OperationKind → String
  | query => "query"
  | mutation => "mutation"
  | subscription => "subscription"

end OperationKind

structure VariableDefinition where
  position : Position
  name : String
  type : TypeReference
  default : Option Value
  directives : List Directive

/-- An operation, apart from its name. -/
structure OperationDefinition where
  position : Position
  kind : OperationKind
  variableDefinitions : List VariableDefinition
  directives : List Directive
  selections : List Selection

structure Operation extends OperationDefinition where
  name : Option String

/-- A fragment, apart from its name. -/
structure FragmentDefinition where
  position : Position
  typeCondition : String
  directives : List Directive
  selections : List Selection

structure Fragment extends FragmentDefinition where
  name : String

inductive TypeSystemKind where
  | schema
  | scalar
  | object
  | interface
  | union
  | enum
  | input
  | directive
  deriving DecidableEq, Repr

/-- A type-system definition, without its contents. -/
structure TypeSystemDefinition where
  position : Position
  kind : TypeSystemKind
  /-- A schema has no name. -/
  name : Option String
  /-- Whether an earlier definition is extended. -/
  extends? : Bool
  deriving DecidableEq, Repr

inductive Definition where
  | operation (operation : Operation)
  | fragment (fragment : Fragment)
  | typeSystem (definition : TypeSystemDefinition)

namespace Definition

def position : Definition → Position
  | operation defined => defined.position
  | fragment defined => defined.position
  | typeSystem defined => defined.position

def operation? : Definition → Option Operation
  | operation defined => some defined
  | _ => none

def fragment? : Definition → Option Fragment
  | fragment defined => some defined
  | _ => none

end Definition

/-- The operations of a text: a single one without a name, or operations by their names. -/
inductive Operations where
  | single (definition : OperationDefinition)
  | multiple (named : Fields OperationDefinition)

namespace Operations

def toList : Operations → List Operation
  | single definition => [{ definition with name := none }]
  | multiple named => named.toList.map fun (name, definition) =>
    { definition with name := some name }

/-- Tells operations that are all named from an operation without a name. -/
def ofList (operations : List Operation) : Operations :=
  match operations.find? (·.name.isNone) with
  | some operation => single operation.toOperationDefinition
  | none => multiple (.ofList (operations.filterMap fun operation =>
    operation.name.map (·, operation.toOperationDefinition)))

end Operations

/-- The operations and the fragments of a text, by their names. -/
structure Executable where
  operations : Operations
  fragments : Fields FragmentDefinition

namespace Executable

/-- The operations and then the fragments, each with its name. -/
def definitions (executable : Executable) : List Definition :=
  executable.operations.toList.map .operation ++
    executable.fragments.toList.map fun (name, definition) =>
      .fragment { definition with name }

/-- The operations and the fragments among some definitions. -/
def ofDefinitions (definitions : List Definition) : Executable where
  operations := .ofList (definitions.filterMap Definition.operation?)
  fragments := .ofList ((definitions.filterMap Definition.fragment?).map fun fragment =>
    (fragment.name, fragment.toFragmentDefinition))

end Executable

/-- A document: its definitions, in order. -/
structure Document where
  definitions : List Definition

namespace Document

def operations (document : Document) : List Operation :=
  document.definitions.filterMap Definition.operation?

def fragments (document : Document) : List Fragment :=
  document.definitions.filterMap Definition.fragment?

def fragmentNames (document : Document) : List String := document.fragments.map (·.name)

/-- The definitions sorted by position; those at one position keep their order. -/
def ofDefinitions (definitions : List Definition) : Document :=
  ⟨definitions.mergeSort fun first second => first.position ≤ second.position⟩

def ofExecutable (executable : Executable) : Document := ofDefinitions executable.definitions

end Document

end PreviewLint
