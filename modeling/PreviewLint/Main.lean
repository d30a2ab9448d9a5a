import PreviewLint.CommandLine.Run

/-!
# The program

Reads the files that the arguments name and the standard input if it is needed,
lets `CommandLine.run` decide, and writes what it says.
-/

namespace PreviewLint.Main

open CommandLine

/-- The failure that an error of the system stands for. -/
def failureOf : IO.Error → ReadFailure
  | .noFileOrDirectory .. => .notFound
  | .inappropriateType _ 21 _ => .directory
  | .inappropriateType .. => .notDirectory
  | error => .other (toString error)

def readFile (path : String) : IO (Except ReadFailure ByteArray) := do
  try
    return .ok (← IO.FS.readBinFile path)
  catch error => return .error (failureOf error)

/-- Reads what is left of a stream. -/
partial def readAll (stream : IO.FS.Stream) (before : ByteArray) : IO ByteArray := do
  let chunk ← stream.read 65536
  if chunk.isEmpty then return before else readAll stream (before ++ chunk)

/-- The files that a request names, and whether it needs the standard input. -/
def sources (request : Request) : List String × Bool :=
  let query := if isStandardInput request.path then [] else [request.path]
  (query ++ request.variablesFile.toList, isStandardInput request.path)

/-- Reads everything that the arguments ask for. -/
def readSources (arguments : List String) : IO (Files × Except ReadFailure String) := do
  match Command.ofArguments arguments with
  | .ok (.validate request) =>
    let (paths, standardInput) := sources request
    let contents ← paths.mapM fun path => return (path, ← readFile path)
    let input ← if standardInput then readAll (← IO.getStdin) ByteArray.empty
      else pure ByteArray.empty
    return (.ofBytes fun path => (contents.lookup path).getD (.error .notFound),
      Files.decode input)
  | _ => return (fun _ => .error .notFound, .ok "")

end PreviewLint.Main

open PreviewLint in
def main (arguments : List String) : IO UInt32 := do
  let (files, standardInput) ← Main.readSources arguments
  let outcome := CommandLine.run files standardInput arguments
  IO.print outcome.output
  IO.eprint outcome.errors
  return outcome.exitCode.toUInt32
