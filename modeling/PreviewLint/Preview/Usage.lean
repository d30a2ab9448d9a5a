import PreviewLint.Document.Walk
import PreviewLint.Fields

/-!
# Usages of fragments

A usage of a fragment is a spread of its name, together with what stands above the
spread. Usages are found by walking the whole document, so an index remembers the
usages of the names that it was asked for.
-/

namespace PreviewLint

/-- A spread of a fragment, and what stands above it, the nearest first. -/
structure Usage where
  spread : Spread
  ancestors : List Ancestor

namespace Document

/-- Notes a node if it is a spread of a fragment. -/
def noteUsage (name : String) : Visitor (List Usage) Empty := fun node above =>
  match node with
  | .spread spread =>
    if spread.name = name then modify (· ++ [⟨spread, above⟩]) else pure ()
  | _ => pure ()

def usagesOf (document : Document) (name : String) : List Usage :=
  ((document.walk (noteUsage name)).run.run []).2

end Document

/-- The usages in a document, as far as they are known. -/
structure UsageIndex where
  document : Document
  known : Fields (List Usage)

namespace UsageIndex

/-- The index of a document that was not asked for anything yet. -/
def ofDocument (document : Document) : UsageIndex := ⟨document, ∅⟩

/-- The usages of a fragment, and the index that remembers them. -/
def usagesOf (index : UsageIndex) (name : String) : List Usage × UsageIndex :=
  match index.known.get? name with
  | some usages => (usages, index)
  | none =>
    let usages := index.document.usagesOf name
    (usages, { index with known := index.known.insert name usages })

end UsageIndex

end PreviewLint
