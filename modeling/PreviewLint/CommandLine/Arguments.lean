/-!
# Command-line arguments

The program has one subcommand, which takes a path and three settings. A setting
takes one value, either after an equals sign or as the next argument. Two dashes
end the settings: what follows them is a path, whatever it looks like.

An argument that was read is settled when the next one is understood, or at the
end. Settling checks the value, so an unknown argument right after a bad value is
reported in preference to it.
-/

namespace PreviewLint.CommandLine

/-- The settings of the subcommand. -/
inductive Setting where
  | preview
  | inlineVariables
  | variablesFile
  deriving DecidableEq, Repr

namespace Setting

def name : Setting → String
  | preview => "preview"
  | inlineVariables => "variables"
  | variablesFile => "variables-file"

def ofName? (name : String) : Option Setting :=
  [preview, inlineVariables, variablesFile].find? (·.name == name)

/-- A setting with a place for its value, as messages show it. -/
def usage (setting : Setting) : String := "--" ++ setting.name ++ " <" ++ setting.name ++ ">"

end Setting

/-- What is wrong with the arguments. -/
inductive UsageError where
  | noArguments
  | unknownSubcommand (argument : String)
  | unexpectedArgument (argument : String)
  | unexpectedValue (value flag : String)
  | missingPath
  | missingValue (usage : String)
  | invalidValue (value : String) (setting : Setting)
  | repeated (setting : Setting)
  deriving DecidableEq, Repr

/-- What the program does, in one line. -/
def summary : String := "Check that GraphQL queries use the preview argument consistently"

namespace UsageError

def message : UsageError → String
  | noArguments => summary
  | unknownSubcommand argument => "error: unrecognized subcommand '" ++ argument ++ "'"
  | unexpectedArgument argument => "error: unexpected argument '" ++ argument ++ "' found"
  | unexpectedValue value flag =>
    "error: unexpected value '" ++ value ++ "' for '" ++ flag ++
      "' found; no more were expected"
  | missingPath => "error: the following required arguments were not provided:"
  | missingValue usage =>
    "error: a value is required for '" ++ usage ++ "' but none was supplied"
  | invalidValue value setting =>
    "error: invalid value '" ++ value ++ "' for '" ++ setting.usage ++ "'"
  | repeated setting =>
    "error: the argument '" ++ setting.usage ++ "' cannot be used multiple times"

end UsageError

/-- What a validation needs to know. -/
structure Request where
  path : String
  inlineVariables : Option String
  variablesFile : Option String
  preview : Option Bool
  deriving DecidableEq, Repr

/-- What the arguments ask for. -/
inductive Command where
  | version
  | help
  | validate (request : Request)
  deriving DecidableEq, Repr

/-- How an argument looks. -/
inductive Shape where
  | escape
  /-- Two dashes and a name, maybe with an equals sign and a value. -/
  | long (name : String) (value : Option String)
  /-- One dash and letters, of which the first matters. -/
  | short (letter : Char)
  | plain
  deriving DecidableEq, Repr

namespace Shape

def ofArgument (argument : String) : Shape :=
  match argument.toList with
  | ['-', '-'] => escape
  | '-' :: '-' :: rest =>
    let name := String.ofList (rest.takeWhile (· != '='))
    match rest.dropWhile (· != '=') with
    | [] => long name none
    | _ :: value => long name (some (String.ofList value))
  | ['-'] => plain
  | '-' :: letter :: _ => short letter
  | _ => plain

end Shape

/-- An argument that was read and is not settled yet. -/
inductive Pending where
  | path (path : String)
  | setting (setting : Setting) (value : Option String)
  deriving DecidableEq, Repr

/-- What was read so far. -/
structure Progress where
  path : Option String := none
  inlineVariables : Option String := none
  variablesFile : Option String := none
  preview : Option Bool := none
  pending : Option Pending := none
  /-- Whether a path was read, settled or not. -/
  pathSeen : Bool := false
  /-- Whether two dashes ended the settings. -/
  escaped : Bool := false
  deriving DecidableEq, Repr

namespace Progress

/-- Whether a setting has a settled value. -/
def has (progress : Progress) : Setting → Bool
  | .preview => progress.preview.isSome
  | .inlineVariables => progress.inlineVariables.isSome
  | .variablesFile => progress.variablesFile.isSome

/-- The place of the path, as messages show it. -/
def pathUsage : String := "<query>"

def assign (progress : Progress) (setting : Setting) (value : String) :
    Except UsageError Progress :=
  match setting with
  | .inlineVariables => .ok { progress with inlineVariables := some value }
  | .variablesFile =>
    if value.isEmpty then .error (.missingValue setting.usage)
    else .ok { progress with variablesFile := some value }
  | .preview =>
    if value.isEmpty then .error (.missingValue setting.usage)
    else if value = "true" then .ok { progress with preview := some true }
    else if value = "false" then .ok { progress with preview := some false }
    else .error (.invalidValue value setting)

/-- Settles the argument that was read last. -/
def settle (progress : Progress) : Except UsageError Progress :=
  let settled := { progress with pending := none }
  match progress.pending with
  | none => .ok settled
  | some (.path path) =>
    if path.isEmpty then .error (.missingValue pathUsage)
    else .ok { settled with path := some path }
  | some (.setting setting none) => .error (.missingValue setting.usage)
  | some (.setting setting (some value)) =>
    if progress.has setting then .error (.repeated setting) else settled.assign setting value

/-- Reads a path. There is only one. -/
def readPath (progress : Progress) (argument : String) : Except UsageError Progress :=
  if progress.pathSeen then .error (.unexpectedArgument argument)
  else do
    let settled ← progress.settle
    return { settled with pending := some (.path argument), pathSeen := true }

/-- Reads an argument that is neither a setting nor two dashes: a value or a path. -/
def readPlain (progress : Progress) (argument : String) : Except UsageError Progress :=
  match progress.pending with
  | some (.setting setting none) =>
    .ok { progress with pending := some (.setting setting (some argument)) }
  | _ => progress.readPath argument

/-- Reads a setting, with its value if that follows an equals sign. -/
def readSetting (progress : Progress) (setting : Setting) (value : Option String) :
    Except UsageError Progress := do
  let settled ← progress.settle
  let pending := { settled with pending := some (.setting setting value) }
  if value.isSome then pending.settle else return pending

end Progress

def helpFlags : Char × String := ('h', "help")

def versionFlags : Char × String := ('V', "version")

/-- Reads the arguments of the subcommand. -/
def readArguments (progress : Progress) : List String → Except UsageError Command
  | [] => do
    let settled ← progress.settle
    match settled.path with
    | none => throw .missingPath
    | some path =>
      return .validate
        ⟨path, settled.inlineVariables, settled.variablesFile, settled.preview⟩
  | argument :: rest => do
    if progress.escaped then
      readArguments (← progress.readPath argument) rest
    else
      match Shape.ofArgument argument with
      | .escape => readArguments { progress with escaped := true } rest
      | .long name value =>
        match Setting.ofName? name with
        | some setting => readArguments (← progress.readSetting setting value) rest
        | none =>
          if name = helpFlags.2 then
            match value with
            | some text => throw (.unexpectedValue text ("--" ++ name))
            | none =>
              let _ ← progress.settle
              return .help
          else throw (.unexpectedArgument ("--" ++ name))
      | .short letter =>
        if letter = helpFlags.1 then
          let _ ← progress.settle
          return .help
        else throw (.unexpectedArgument ("-" ++ letter.toString))
      | .plain => readArguments (← progress.readPlain argument) rest

def subcommand : String := "validate"

/-- Reads the arguments after two dashes at the top: there is nothing that they could be. The
name of the subcommand is known, so there it is unexpected and not unknown. -/
def readEscaped : List String → Except UsageError Command
  | [] => .error .noArguments
  | argument :: _ =>
    if argument = subcommand then .error (.unexpectedArgument argument)
    else .error (.unknownSubcommand argument)

def Command.ofArguments : List String → Except UsageError Command
  | [] => .error .noArguments
  | argument :: rest =>
    if argument = subcommand then readArguments {} rest
    else
      match Shape.ofArgument argument with
      | .escape => readEscaped rest
      | .long name none =>
        if name = helpFlags.2 then .ok .help
        else if name = versionFlags.2 then .ok .version
        else .error (.unexpectedArgument ("--" ++ name))
      | .long name (some value) =>
        if name = helpFlags.2 || name = versionFlags.2 then
          .error (.unexpectedValue value ("--" ++ name))
        else .error (.unexpectedArgument ("--" ++ name))
      | .short letter =>
        if letter = helpFlags.1 then .ok .help
        else if letter = versionFlags.1 then .ok .version
        else .error (.unexpectedArgument ("-" ++ letter.toString))
      | .plain => .error (.unknownSubcommand argument)

end PreviewLint.CommandLine
