import PreviewLint.CommandLine.Arguments
import PreviewLint.Document.Parse
import PreviewLint.Variables

/-!
# Running the program

The program reads its arguments, then the query, then the variables, and validates
the query. What it writes and the code with which it exits are a function of the
arguments, of what the files hold and of the standard input.
-/

namespace PreviewLint.CommandLine

/-- What a run of the program does. -/
structure Outcome where
  exitCode : Nat
  output : String
  errors : String
  deriving DecidableEq, Repr

namespace Outcome

def success (output : String) : Outcome := ⟨0, output, ""⟩

def failure (errors : String) : Outcome := ⟨1, "", errors⟩

/-- A run that fails for a reason, and maybe for a cause behind it. -/
def error (message : String) (cause : Option ReadFailure) : Outcome :=
  let causes := match cause with
    | none => ""
    | some failure => "\nCaused by:\n    " ++ failure.message ++ "\n"
  failure ("Error: " ++ message ++ "\n" ++ causes)

end Outcome

def versionText : String := "preview-check 0.1.0\n"

def helpText : String :=
  summary ++ "\n\nUsage: preview-check validate [OPTIONS] <query>\n\nOptions:\n" ++
    "      --variables <variables>            Variables as a JSON object\n" ++
    "      --variables-file <variables-file>  Path to a JSON file holding the variables object\n" ++
    "      --preview <preview>                Value of the preview variable\n" ++
    "  -h, --help                             Print help\n" ++
    "  -V, --version                          Print version\n"

/-- Whether a path stands for the standard input: a dash, with nothing but slashes and dots
after it. -/
def isStandardInput (path : String) : Bool :=
  match path.splitOn "/" with
  | name :: rest => name == "-" && rest.all fun part => part.isEmpty || part == "."
  | [] => false

/-- The line that reports a violation: where, unless it has no place, and what. -/
def report (path : String) (violation : Violation) : String :=
  let place :=
    if violation.position.line = 0 then path else path ++ ":" ++ violation.position.text
  place ++ ": " ++ violation.message ++ "\n"

def unreadableQuery (path : String) : String :=
  if isStandardInput path then "Failed to read the query from stdin"
  else "Failed to read the query file '" ++ path ++ "'"

def ofLoadError (error : LoadError) : Outcome :=
  match error with
  | .unreadable _ cause => .error error.message (some cause)
  | .malformed _ | .notAnObject _ => .error error.message none

/-- Reads and validates a query. -/
def check (source : String) (given : Variables) : Except Violation Unit := do
  let document ← Document.parse source
  document.validate given

/-- Carries out a validation. -/
def validate (files : Files) (standardInput : Except ReadFailure String) (request : Request) :
    Outcome :=
  let source := if isStandardInput request.path then standardInput else files request.path
  match source with
  | .error cause => .error (unreadableQuery request.path) (some cause)
  | .ok query =>
    match Variables.load files request.variablesFile request.inlineVariables request.preview with
    | .error error => ofLoadError error
    | .ok given =>
      match check query given with
      | .ok () => .success ("✓ " ++ request.path ++ "\n")
      | .error violation =>
        .failure (report request.path violation ++ "Error: Validation failed\n")

def run (files : Files) (standardInput : Except ReadFailure String) (arguments : List String) :
    Outcome :=
  match Command.ofArguments arguments with
  | .error error => ⟨2, "", error.message ++ "\n"⟩
  | .ok .version => .success versionText
  | .ok .help => .success helpText
  | .ok (.validate request) => validate files standardInput request

end PreviewLint.CommandLine
