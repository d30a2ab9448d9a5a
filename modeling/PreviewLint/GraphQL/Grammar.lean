import PreviewLint.GraphQL.Rule
import PreviewLint.Peg.Matcher
import PreviewLint.Peg.Numeral

/-!
# The GraphQL grammar

`GraphQL.grammar` gives every rule its parsing expression. Keywords are plain
texts without a word boundary: `queryA` begins with the keyword `query`, and
`[truefalse]` holds two values.

Blanks are spaces, tabs, commas, byte order marks and line ends. They are
skipped between the parts of a rule, together with comments, which run from a
number sign to the end of the line. Names, numbers, strings, enum values, type
references and type conditions are written without blanks inside, apart from
the blanks that a type condition needs after its keyword.
-/

namespace PreviewLint.GraphQL

def isLineEnd (character : Char) : Bool := character == '\n' || character == '\r'

/-- Blanks: a space, a comma, a tab, a byte order mark or a line end. -/
def isBlank (character : Char) : Bool :=
  character == ' ' || character == ',' || character == '\t' || character == '\uFEFF' ||
    isLineEnd character

/-- Letters of the ASCII alphabet and the underscore. -/
def isNameStart (character : Char) : Bool := character.isAlpha || character == '_'

def isNamePart (character : Char) : Bool := isNameStart character || character.isDigit

/-- Skips blanks and comments; `inComment` tells whether the place lies inside a comment. -/
def skipIgnored (inComment : Bool) (offset : Nat) : List Char → Cursor
  | [] => ⟨offset, []⟩
  | character :: rest =>
    if inComment then skipIgnored (!isLineEnd character) (offset + 1) rest
    else if isBlank character then skipIgnored false (offset + 1) rest
    else if character == '#' then skipIgnored true (offset + 1) rest
    else ⟨offset, character :: rest⟩

section Bodies

open Peg Rule Constancy

/-- A number with a fraction, an exponent or both. -/
def decimal : Peg Rule := integer ++ (fraction ++ exponent ||| fraction ||| exponent)

/-- Three quotes delimit a block string. -/
def blockQuote : Peg Rule := word "\"\"\""

/-- The only escape of a block string: three quotes that do not end it. -/
def escapedBlockQuote : Peg Rule := word "\\\"\"\""

/-- A character of a block string, or three escaped quotes. -/
def blockCharacter : Peg Rule :=
  absent (blockQuote ||| escapedBlockQuote) ++ any ||| escapedBlockQuote

/-- A character of a quoted string, or an escape. -/
def quotedCharacter : Peg Rule :=
  char (fun c => c != '"' && c != '\\' && !isLineEnd c) |||
    word "\\" ++ char (fun c => "\"\\/bfnrt".toList.contains c) |||
    word "\\u" ++ scalarDigits

/-- A description, which may be left out. -/
def description : Peg Rule := maybe (rule string)

/-- Constant directives, which may be left out. -/
def constantDirectives : Peg Rule := maybe (rule (directives constant))

/-- The extension of a type by `parts`, or by directives alone. -/
def extended (keyword : String) (parts : Rule) : Peg Rule :=
  rule extend ++ word keyword ++ rule name ++
    (constantDirectives ++ rule parts ||| rule (directives constant))

/-- A type that is defined, maybe without the `parts` of its body. -/
def defined (keyword : String) (parts : Rule) : Peg Rule :=
  description ++ word keyword ++ rule name ++ constantDirectives ++ maybe (rule parts)

/-- A type with interfaces and fields that is defined, maybe without either. -/
def definedWithFields (keyword : String) : Peg Rule :=
  description ++ word keyword ++ rule name ++ maybe (rule implementsInterfaces) ++
    constantDirectives ++ maybe (rule fieldsDefinition)

/-- What an extension adds after the interfaces. -/
def addedFields : Peg Rule :=
  constantDirectives ++ rule fieldsDefinition ||| rule (directives constant)

def rootOperations : Peg Rule :=
  constantDirectives ++ word "\x7b" ++ many1 (rule rootOperationType) ++ word "\x7d"

/-- A list of parts between two delimiters. -/
def enclosed (opening : String) (parts : Peg Rule) (closing : String) : Peg Rule :=
  word opening ++ parts ++ word closing

def braced (parts : Peg Rule) : Peg Rule := enclosed "\x7b" parts "\x7d"

def parenthesized (parts : Peg Rule) : Peg Rule := enclosed "(" parts ")"

/-- Every value but a variable. -/
def literal (constancy : Constancy) : Peg Rule :=
  rule number ||| rule string ||| rule boolean ||| rule null ||| rule enumValue |||
    rule (list constancy) ||| rule (object constancy)

/-- The places where a directive may stand, each before those that its name begins with. -/
def locations : Peg Rule :=
  word "QUERY" ||| word "MUTATION" ||| word "SUBSCRIPTION" ||| word "FIELD_DEFINITION" |||
    word "FIELD" ||| word "FRAGMENT_DEFINITION" ||| word "FRAGMENT_SPREAD" |||
    word "INLINE_FRAGMENT" ||| word "VARIABLE_DEFINITION" ||| word "SCHEMA" ||| word "SCALAR" |||
    word "OBJECT" ||| word "ARGUMENT_DEFINITION" ||| word "INTERFACE" ||| word "UNION" |||
    word "ENUM_VALUE" ||| word "ENUM" ||| word "INPUT_OBJECT" ||| word "INPUT_FIELD_DEFINITION"

def body : Rule → Peg Rule
  | executableDocument => empty ++ many1 (rule executableDefinition) ++ rule endOfInput
  | executableDefinition => rule operationDefinition ||| rule fragmentDefinition
  | operationDefinition => rule namedOperation ||| rule selectionSet
  | namedOperation =>
    rule operationType ++ maybe (rule name) ++ maybe (rule variableDefinitions) ++
      maybe (rule (directives .variable)) ++ rule selectionSet
  | operationType => word "query" ||| word "mutation" ||| word "subscription"
  | variableDefinitions => parenthesized (many (rule variableDefinition))
  | variableDefinition =>
    rule Rule.variable ++ word ":" ++ rule typeReference ++
      maybe (rule (directives .variable)) ++ maybe (rule defaultValue)
  | defaultValue => word "=" ++ rule (value constant)
  | selectionSet => braced (many1 (rule selection))
  | selection => rule field ||| rule inlineFragment ||| rule fragmentSpread
  | field =>
    maybe (rule fieldAlias) ++ rule name ++ maybe (rule (arguments .variable)) ++
      maybe (rule (directives .variable)) ++ maybe (rule selectionSet)
  | fieldAlias => rule name ++ word ":"
  | fragmentSpread =>
    word "..." ++ absent (rule typeCondition) ++ rule name ++
      maybe (rule (directives .variable))
  | inlineFragment =>
    word "..." ++ maybe (rule typeCondition) ++ maybe (rule (directives .variable)) ++
      rule selectionSet
  | fragmentDefinition =>
    word "fragment" ++ rule name ++ rule typeCondition ++
      maybe (rule (directives .variable)) ++ rule selectionSet
  | typeCondition => word "on" ++ many1 (char isBlank) ++ rule name
  | typeSystemDocument => empty ++ many1 (rule typeSystemDefinition) ++ rule endOfInput
  | typeSystemDefinition =>
    rule schemaDefinition ||| rule typeDefinition ||| rule directiveDefinition
  | schemaDefinition =>
    word "schema" ++ rootOperations |||
      rule extend ++ word "schema" ++ (rootOperations ||| rule (directives constant))
  | rootOperationType => rule operationType ++ word ":" ++ rule name
  | typeDefinition =>
    rule scalarType ||| rule objectType ||| rule interfaceType ||| rule unionType |||
      rule enumType ||| rule inputObjectType
  | scalarType =>
    description ++ word "scalar" ++ rule name ++ constantDirectives |||
      rule extend ++ word "scalar" ++ rule name ++ rule (directives constant)
  | objectType =>
    definedWithFields "type" |||
      rule extend ++ word "type" ++ rule name ++
        (maybe (rule implementsInterfaces) ++ addedFields ||| rule implementsInterfaces)
  | interfaceType =>
    definedWithFields "interface" |||
      rule extend ++ word "interface" ++ rule name ++ maybe (rule implementsInterfaces) ++
        addedFields
  | unionType => defined "union" unionMembers ||| extended "union" unionMembers
  | enumType => defined "enum" enumValuesDefinition ||| extended "enum" enumValuesDefinition
  | inputObjectType =>
    defined "input" inputFieldsDefinition ||| extended "input" inputFieldsDefinition
  | directiveDefinition =>
    description ++ word "directive" ++ word "@" ++ rule name ++
      maybe (rule argumentsDefinition) ++ rule repeatable ++ word "on" ++
      rule directiveLocations
  | extend => word "extend"
  | implementsInterfaces =>
    word "implements" ++ maybe (word "&") ++ rule name ++ many (word "&" ++ rule name)
  | fieldsDefinition => braced (many1 (rule fieldDefinition))
  | fieldDefinition =>
    description ++ rule name ++ maybe (rule argumentsDefinition) ++ word ":" ++
      rule typeReference ++ constantDirectives
  | argumentsDefinition => parenthesized (many1 (rule inputValueDefinition))
  | inputFieldsDefinition => braced (many1 (rule inputValueDefinition))
  | inputValueDefinition =>
    description ++ rule name ++ word ":" ++ rule typeReference ++ maybe (rule defaultValue) ++
      constantDirectives
  | unionMembers => word "=" ++ maybe (word "|") ++ rule name ++ many (word "|" ++ rule name)
  | enumValuesDefinition => braced (many1 (rule enumValueDefinition))
  | enumValueDefinition => description ++ rule enumValue ++ constantDirectives
  | repeatable => maybe (word "repeatable")
  | directiveLocations =>
    maybe (word "|") ++ rule directiveLocation ++ many (word "|" ++ rule directiveLocation)
  | directiveLocation => locations
  | value constant => literal constant
  | value .variable => rule Rule.variable ||| literal .variable
  | list constancy => enclosed "[" (many (rule (value constancy))) "]"
  | object constancy => braced (many (rule (objectField constancy)))
  | objectField constancy => rule name ++ word ":" ++ rule (value constancy)
  | directives constancy => many1 (rule (directive constancy))
  | directive constancy => word "@" ++ rule name ++ maybe (rule (arguments constancy))
  | arguments constancy => parenthesized (many1 (rule (argument constancy)))
  | argument constancy => rule name ++ word ":" ++ rule (value constancy)
  | Rule.variable => word "$" ++ rule name
  | number => (decimal ||| integer) ++ absent (char isNameStart)
  | string =>
    blockQuote ++ many blockCharacter ++ blockQuote |||
      word "\"" ++ many quotedCharacter ++ word "\""
  | boolean => word "true" ||| word "false"
  | null => word "null"
  | enumValue => absent (rule boolean ||| rule null) ++ rule name
  | typeReference => (rule name ||| word "[" ++ rule typeReference ++ word "]") ++ maybe (word "!")
  | name => char isNameStart ++ many (char isNamePart)
  | endOfInput => absent any

/-- How each rule treats blanks and failures. -/
def spacing : Rule → Spacing
  | name | number | typeReference => .token
  | string | enumValue | typeCondition => .joined
  | _ => .spaced

/-- A rule stands above those that it may call before reading a character. -/
def rank : Rule → Nat
  | executableDocument | typeSystemDocument => 4
  | executableDefinition | typeSystemDefinition | selection => 3
  | operationDefinition | typeDefinition | field | enumValueDefinition | value _ => 2
  | namedOperation | variableDefinition | fieldAlias | schemaDefinition | rootOperationType
  | scalarType | objectType | interfaceType | unionType | enumType | inputObjectType
  | directiveDefinition | fieldDefinition | inputValueDefinition | directiveLocations
  | objectField _ | directives _ | argument _ | enumValue | typeReference => 1
  | _ => 0

end Bodies

def grammar : Grammar Rule where
  body := body
  spacing := spacing
  skip cursor := skipIgnored false cursor.offset cursor.rest
  rank := rank
  ranks := 5

end PreviewLint.GraphQL
