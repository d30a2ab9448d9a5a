import PreviewLint.Fields
import PreviewLint.GraphQL.Literal
import PreviewLint.Violation

/-!
# From matches to definitions

A text that matches the grammar is turned into definitions in text order, and
the first problem that is met on the way is the error: a number out of range,
selections that are nested too deep, or a schema whose roots are wrong. Names are
compared only after all definitions have been read.

The functions take a match apart by the rules inside it, and ignore the parts
that they do not ask for.
-/

namespace PreviewLint.Reader

open GraphQL

/-- A match of a rule of the GraphQL grammar. -/
abbrev Match := Tree Rule

/-- The text of the first name among some parts. -/
def nameIn (parts : List Match) : Option String := Tree.textOf? .name parts

section Values

variable (place : Nat → Position)

mutual

/-- The value that a match stands for, as a list of one. Parts without a value give none. -/
def valueOf : Match → Except ParseError (List Value)
  | .node rule start stop parts =>
    match rule with
    | .value _ => valuesOf parts
    | .variable => .ok [.variable ((nameIn parts).getD "")]
    | .number =>
      match Number.ofLiteral? (start.textUntil stop) with
      | some value => .ok [.number value]
      | none => .error (.invalidNumber (place start.offset))
    | .string => .ok [.string (stringValue (start.textUntil stop))]
    | .boolean => .ok [.boolean (start.textUntil stop == "true".toList)]
    | .null => .ok [.null]
    | .enumValue => .ok [.enum (String.ofList (start.textUntil stop))]
    | .list _ => do
      let items ← valuesOf parts
      return [.list items]
    | .object _ => do
      let fields ← namedValuesOf parts
      return [.object (.ofList fields)]
    | _ => .ok []

def valuesOf : List Match → Except ParseError (List Value)
  | [] => .ok []
  | part :: parts => do
    let values ← valueOf part
    let more ← valuesOf parts
    return values ++ more

/-- The names and values of some arguments, or of some fields of an object. -/
def namedValuesOf : List Match → Except ParseError (List (String × Value))
  | [] => .ok []
  | .node _ _ _ parts :: entries => do
    let values ← valuesOf parts
    let more ← namedValuesOf entries
    return (values.map fun value => ((nameIn parts).getD "", value)) ++ more

end

def argumentsIn (parts : List Match) : Except ParseError Arguments :=
  namedValuesOf place (Tree.inside (.arguments .variable) parts)

def directivesIn (parts : List Match) : Except ParseError (List Directive) :=
  (Tree.inside (.directives .variable) parts).mapM fun directive => do
    let arguments ← argumentsIn place directive.children
    return ⟨(nameIn directive.children).getD "", arguments⟩

end Values

section Selections

variable (place : Nat → Position)

mutual

/--
The selections that a match stands for, with at most `levels` selection sets nested
inside each other.
-/
def selectionOf (levels : Nat) : Match → Except ParseError (List Selection)
  | .node rule start _ parts =>
    match rule with
    | .selection => selectionsOf levels parts
    | .field => do
      let arguments ← argumentsIn place parts
      let directives ← directivesIn place parts
      let selections ← selectionSetIn levels parts
      return [.field
        { position := place start.offset
          aliasName := nameIn (Tree.inside .fieldAlias parts)
          name := (nameIn parts).getD ""
          arguments, directives } selections]
    | .inlineFragment => do
      let directives ← directivesIn place parts
      let selections ← selectionSetIn levels parts
      return [.inline
        { position := place start.offset
          typeCondition := nameIn (Tree.inside .typeCondition parts)
          directives } selections]
    | .fragmentSpread => do
      let directives ← directivesIn place parts
      return [.spread
        { position := place start.offset
          name := (nameIn parts).getD ""
          directives }]
    | _ => .ok []

def selectionsOf (levels : Nat) : List Match → Except ParseError (List Selection)
  | [] => .ok []
  | part :: parts => do
    let selections ← selectionOf levels part
    let more ← selectionsOf levels parts
    return selections ++ more

/-- The selections of the selection set among some parts. -/
def selectionSetIn (levels : Nat) : List Match → Except ParseError (List Selection)
  | [] => .ok []
  | .node rule _ _ inner :: parts =>
    if rule = .selectionSet then
      match levels with
      | 0 => .error .tooDeep
      | levels + 1 => selectionsOf levels inner
    else selectionSetIn levels parts

end

/-- The selection set of a definition, and the sets nested below it. -/
def selectionLevels : Nat := 65

def rootSelectionsIn (parts : List Match) : Except ParseError (List Selection) :=
  selectionSetIn place selectionLevels parts

end Selections

section Executable

variable (place : Nat → Position)

/-- Reads the mark of a type that excludes null, if it is there. -/
def nonNullMark : List Char → Bool × List Char
  | '!' :: rest => (true, rest)
  | rest => (false, rest)

/-- Reads a type reference, and returns what follows it. -/
def typeOf : List Char → TypeReference × List Char
  | '[' :: rest =>
    let (item, after) := typeOf rest
    let (nonNull, remaining) := nonNullMark (after.drop 1)
    (.list item nonNull, remaining)
  | text =>
    let (nonNull, remaining) := nonNullMark (text.dropWhile isNamePart)
    (.named (String.ofList (text.takeWhile isNamePart)) nonNull, remaining)

def operationKindOf (keyword : String) : OperationKind :=
  if keyword = "mutation" then .mutation
  else if keyword = "subscription" then .subscription
  else .query

/-- The kind of operation named among some parts; an operation without a keyword is a query. -/
def operationKindIn (parts : List Match) : OperationKind :=
  ((Tree.textOf? .operationType parts).map operationKindOf).getD .query

def variableDefinitionOf (tree : Match) : Except ParseError VariableDefinition := do
  let parts := tree.children
  let directives ← directivesIn place parts
  let defaults ← valuesOf place (Tree.inside .defaultValue parts)
  return {
    position := place tree.offset
    name := (nameIn (Tree.inside .variable parts)).getD ""
    type := (typeOf (((Tree.find? .typeReference parts).map Tree.characters).getD [])).1
    default := defaults.head?
    directives }

def operationOf (tree : Match) : Except ParseError Operation := do
  let parts := ((Tree.find? .namedOperation tree.children).map Tree.children).getD tree.children
  let variableDefinitions ←
    (Tree.inside .variableDefinitions parts).mapM (variableDefinitionOf place)
  let directives ← directivesIn place parts
  let selections ← rootSelectionsIn place parts
  return {
    position := place tree.offset
    kind := operationKindIn parts
    name := nameIn parts
    variableDefinitions, directives, selections }

def fragmentOf (tree : Match) : Except ParseError Fragment := do
  let parts := tree.children
  let directives ← directivesIn place parts
  let selections ← rootSelectionsIn place parts
  return {
    position := place tree.offset
    name := (nameIn parts).getD ""
    typeCondition := (nameIn (Tree.inside .typeCondition parts)).getD ""
    directives, selections }

/-- The definitions that a match stands for: one, or none for the end of the text. -/
def executableDefinitionOf (tree : Match) : Except ParseError (List Definition) :=
  tree.children.mapM fun definition =>
    if definition.rule = .operationDefinition then
      (operationOf place definition).map .operation
    else (fragmentOf place definition).map .fragment

end Executable

section TypeSystem

variable (place : Nat → Position)

mutual

/-- Refuses the first number out of range in a match. -/
def checkNumbers : Match → Except ParseError Unit
  | .node rule start stop parts =>
    if rule = .number && (Number.ofLiteral? (start.textUntil stop)).isNone then
      .error (.invalidNumber (place start.offset))
    else checkAllNumbers parts

def checkAllNumbers : List Match → Except ParseError Unit
  | [] => .ok ()
  | part :: parts => do
    checkNumbers part
    checkAllNumbers parts

end

/-- Refuses a second root of one kind. -/
def checkRoots (seen : List OperationKind) : List OperationKind → Except ParseError Unit
  | [] => .ok ()
  | kind :: kinds =>
    if seen.contains kind then .error (.multipleRoots kind) else checkRoots (kind :: seen) kinds

def rootsIn (parts : List Match) : List OperationKind :=
  (parts.filter (·.rule == .rootOperationType)).map fun root => operationKindIn root.children

/-- Refuses a schema that names a root twice, or, unless it is an extension, no query root. -/
def checkSchema (parts : List Match) (extended : Bool) : Except ParseError Unit := do
  checkRoots [] (rootsIn parts)
  if !extended && !(rootsIn parts).contains .query then throw .missingQueryRoot

def typeSystemKind : Rule → TypeSystemKind
  | .scalarType => .scalar
  | .objectType => .object
  | .interfaceType => .interface
  | .unionType => .union
  | .enumType => .enum
  | .inputObjectType => .input
  | .directiveDefinition => .directive
  | _ => .schema

/-- The definitions of a match: the definition itself, or that of a type inside it. -/
def definitionsIn (tree : Match) : List Match :=
  tree.children.flatMap fun inner =>
    if inner.rule = .typeDefinition then inner.children else [inner]

/-- The type-system definitions that a match stands for: one, or none for the end of the text. -/
def typeSystemDefinitionOf (tree : Match) : Except ParseError (List Definition) :=
  (definitionsIn tree).mapM fun definition => do
    let parts := definition.children
    let kind := typeSystemKind definition.rule
    let extended := (Tree.find? .extend parts).isSome
    checkAllNumbers place parts
    if kind = .schema then checkSchema parts extended
    return .typeSystem {
      position := place tree.offset
      kind, extends? := extended
      name := if kind = .schema then none else nameIn parts }

end TypeSystem

/-- Refuses a definition whose name, or lack of one, clashes with an earlier definition. -/
def checkName (earlier : List Definition) : Definition → Except Violation Unit
  | .operation operation =>
    let clashes := earlier.any fun definition =>
      match definition.operation? with
      | some other => other.name.isNone || operation.name.isNone || other.name == operation.name
      | none => false
    if clashes then .error .operationCount else .ok ()
  | .fragment fragment =>
    let first? := (earlier.filterMap Definition.fragment?).find? (·.name == fragment.name)
    match first? with
    | some first =>
      .error (.unreadable (.duplicateFragment fragment.name first.position fragment.position))
    | none => .ok ()
  | .typeSystem _ => .ok ()

/-- Refuses the first clash of names, in text order. -/
def checkNames (earlier : List Definition) : List Definition → Except Violation Unit
  | [] => .ok ()
  | definition :: definitions => do
    checkName earlier definition
    checkNames (earlier ++ [definition]) definitions

/-- Matches a text against a rule, and reads the definitions inside. -/
def definitionsOf (text : List Char) (start : Rule)
    (read : (Nat → Position) → Match → Except ParseError (List Definition)) :
    Except ParseError (List Definition) :=
  match grammar.parse start text with
  | .error furthest => .error (.noMatch (Position.ofFailure (text.take furthest)))
  | .ok tree => do
    let definitions ← tree.children.mapM (read fun offset => Position.following (text.take offset))
    return definitions.flatten

def executable (text : List Char) : Except Violation Document := do
  let definitions ← (definitionsOf text .executableDocument executableDefinitionOf).mapError
    .unreadable
  checkNames [] definitions
  if (definitions.filterMap Definition.operation?).isEmpty then throw .operationCount
  return .ofExecutable (.ofDefinitions definitions)

def typeSystem (text : List Char) : Except Violation Document := do
  let definitions ← (definitionsOf text .typeSystemDocument typeSystemDefinitionOf).mapError
    .unreadable
  return .ofDefinitions definitions

end PreviewLint.Reader
