import PreviewLint.Document.Outline
import PreviewLint.Document.Reader

/-!
# Reading documents

A text is read as executable definitions if it can be, else as type-system
definitions. A text that mixes the two is split by its outline, and each half is
read on its own; since both halves keep every character in its place, the
positions in them are positions in the text.
-/

namespace PreviewLint.Document

/-- Reads the two halves of a text, and sorts their definitions together. -/
def ofHalves (executable typeSystem : List Char) : Except Violation Document := do
  let executableHalf ← Reader.executable executable
  let typeSystemHalf ← Reader.typeSystem typeSystem
  return ofDefinitions (executableHalf.definitions ++ typeSystemHalf.definitions)

/--
Reads a text that does not consist of executable definitions only, because of `violation`.
A text without sections of both kinds, and not of type-system definitions only, is refused
for that reason.
-/
def ofMixed (text : List Char) (violation : Violation) : Except Violation Document :=
  match Reader.typeSystem text with
  | .ok document => .ok document
  | .error _ =>
    let outline := Outline.ofText text
    if outline.has .executable && outline.has .typeSystem then
      ofHalves (outline.half .executable) (outline.half .typeSystem)
    else .error violation

def parse (source : String) : Except Violation Document :=
  match Reader.executable source.toList with
  | .ok document => .ok document
  | .error .operationCount => .error .operationCount
  | .error violation => ofMixed source.toList violation

end PreviewLint.Document
