import PreviewLint.Json.Reader
import PreviewLint.Preview.Check

/-!
# Assembling the variables

Variables come from a file, from a text on the command line and from a flag for
`preview`. Later sources win; a variable that an earlier source has keeps its
place. Files are read by a function, so that everything here is a function of what
the files hold.
-/

namespace PreviewLint

/-- Why a file cannot be read as text. -/
inductive ReadFailure where
  | notFound
  | directory
  /-- The path goes on after something that is no directory. -/
  | notDirectory
  | invalidText
  /-- Any other reason that the system gives. -/
  | other (reason : String)
  deriving DecidableEq, Repr

namespace ReadFailure

def message : ReadFailure → String
  | notFound => "No such file or directory (os error 2)"
  | directory => "Is a directory (os error 21)"
  | notDirectory => "Not a directory (os error 20)"
  | invalidText => "stream did not contain valid UTF-8"
  | other reason => reason

end ReadFailure

/-- What the path of a file holds. -/
abbrev Files := String → Except ReadFailure String

namespace Files

/-- The text that some bytes encode. -/
def decode (content : ByteArray) : Except ReadFailure String :=
  match String.fromUTF8? content with
  | some text => .ok text
  | none => .error .invalidText

/-- Files by the bytes that are stored in them. -/
def ofBytes (stored : String → Except ReadFailure ByteArray) : Files := fun path => do
  decode (← stored path)

end Files

/-- Why variables cannot be assembled. -/
inductive LoadError where
  | unreadable (path : String) (cause : ReadFailure)
  | malformed (source : String)
  | notAnObject (source : String)
  deriving DecidableEq, Repr

namespace LoadError

def message : LoadError → String
  | unreadable path cause =>
    "Failed to read variables file '" ++ path ++ "': " ++ cause.message
  | malformed source => "Variables from " ++ source ++ " are not valid JSON"
  | notAnObject source => "Variables from " ++ source ++ " must be a JSON object"

end LoadError

namespace Variables

/-- Reads a JSON object; `source` is where the text comes from. -/
def parse (source text : String) : Except LoadError Variables :=
  match Json.parse? text with
  | some (.object fields) => .ok fields
  | some _ => .error (.notAnObject source)
  | none => .error (.malformed source)

/-- Reads a JSON object from a file. -/
def parseFile (files : Files) (path : String) : Except LoadError Variables :=
  match files path with
  | .ok text => parse path text
  | .error cause => .error (.unreadable path cause)

/-- The name of the text on the command line as a source. -/
def inlineSource : String := "--variables"

/-- Assembles the variables from a file, a text and a flag, each of which may be missing. -/
def load (files : Files) (file inline : Option String) (preview : Option Bool) :
    Except LoadError Variables := do
  let fromFile ← (file.map (parseFile files)).getD (.ok ∅)
  let fromText ← (inline.map (parse inlineSource)).getD (.ok ∅)
  let assembled := (Fields.merge ∅ fromFile).merge fromText
  return (preview.map fun flag => assembled.insert previewName (.bool flag)).getD assembled

end Variables

end PreviewLint
