import PreviewLint.Preview.Placement
import PreviewLint.Preview.Usage

/-!
# Fragments that are used at the root of an operation

A fragment is used at the root if a spread of it stands at the root of an
operation, or at the root of a fragment that is itself used at the root. The
search goes from a fragment up to the definitions that spread it, in the order of
the usages, and stops at the first operation.

A path of fragments that comes back to a fragment on it is a cycle, and ends the
search with an error. The names that the search may still go to, the fragments of
the document and the one that was asked for, become fewer with every step: this is
why the search ends.

Answers are remembered once they are complete. A search that ends with a cycle
leaves no answer for the fragments on its path.
-/

namespace PreviewLint

/-- What is remembered between searches in one document. -/
structure Reachability where
  index : UsageIndex
  answers : Fields Bool

namespace Reachability

def ofDocument (document : Document) : Reachability := ⟨.ofDocument document, ∅⟩

/-- A search, which may end with the names along a cycle. -/
abbrev Search := ExceptT (List String) (StateM Reachability)

def usagesOf (name : String) : Search (List Usage) :=
  modifyGet fun memory =>
    let (usages, index) := memory.index.usagesOf name
    (usages, { memory with index })

def remembered? (name : String) : Search (Option Bool) := do
  return (← get).answers.get? name

def remember (name : String) (answer : Bool) : Search Unit :=
  modify fun memory => { memory with answers := memory.answers.insert name answer }

/--
Whether one of the usages stands at the root of an operation, or of a fragment for which
`visit` says so. Later usages are not looked at.
-/
def anyAtRoot {m : Type → Type} [Monad m] (visit : String → m Bool) : List Usage → m Bool
  | [] => pure false
  | usage :: usages =>
    match Placement.ofAncestors usage.ancestors with
    | .nested => anyAtRoot visit usages
    | .root (.operation _) => pure true
    | .root (.fragment fragment) => do
      if ← visit fragment.name then pure true else anyAtRoot visit usages

def without (name : String) (names : List String) : List String := names.filter (· ≠ name)

theorem length_without_lt {name : String} {names : List String} (member : name ∈ names) :
    (without name names).length < names.length :=
  List.length_filter_lt_length_iff_exists.mpr ⟨name, member, by simp⟩

/--
Whether a fragment is used at the root. `path` leads from the fragment that was asked for to
this one, which is not part of it, and `unvisited` are the names that are not on the path.
-/
def resolve (unvisited path : List String) (name : String) : Search Bool := do
  match ← remembered? name with
  | some answer => return answer
  | none =>
    if _member : name ∈ unvisited then
      let usages ← usagesOf name
      let answer ← anyAtRoot (resolve (without name unvisited) (path ++ [name])) usages
      remember name answer
      return answer
    else throw (path ++ [name])
termination_by unvisited.length
decreasing_by exact length_without_lt _member

/-- Whether a fragment is used at the root of an operation. -/
def isUsedAtRoot (name : String) : Search Bool := do
  resolve (name :: (← get).index.document.fragmentNames) [] name

end Reachability

end PreviewLint
