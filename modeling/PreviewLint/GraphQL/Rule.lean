/-!
# The rules of the GraphQL grammar

The names follow the GraphQL specification. Where the specification has a rule
twice, once for values that may hold variables and once for constant ones, one
rule stands for both and says which of the two it is.
-/

namespace PreviewLint.GraphQL

/-- Whether variables may occur in a value. -/
inductive Constancy where
  | constant
  | variable
  deriving DecidableEq, Repr

inductive Rule where
  | executableDocument
  | executableDefinition
  | operationDefinition
  | namedOperation
  | operationType
  | variableDefinitions
  | variableDefinition
  | defaultValue
  | selectionSet
  | selection
  | field
  | fieldAlias
  | fragmentSpread
  | inlineFragment
  | fragmentDefinition
  | typeCondition
  | typeSystemDocument
  | typeSystemDefinition
  | schemaDefinition
  | rootOperationType
  | typeDefinition
  | scalarType
  | objectType
  | interfaceType
  | unionType
  | enumType
  | inputObjectType
  | directiveDefinition
  | extend
  | implementsInterfaces
  | fieldsDefinition
  | fieldDefinition
  | argumentsDefinition
  | inputFieldsDefinition
  | inputValueDefinition
  | unionMembers
  | enumValuesDefinition
  | enumValueDefinition
  | repeatable
  | directiveLocations
  | directiveLocation
  | value (constancy : Constancy)
  | list (constancy : Constancy)
  | object (constancy : Constancy)
  | objectField (constancy : Constancy)
  | directives (constancy : Constancy)
  | directive (constancy : Constancy)
  | arguments (constancy : Constancy)
  | argument (constancy : Constancy)
  | variable
  | number
  | string
  | boolean
  | null
  | enumValue
  | typeReference
  | name
  | endOfInput
  deriving DecidableEq, Repr

end PreviewLint.GraphQL
