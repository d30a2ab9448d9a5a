import PreviewLint.Preview.Reachability
import PreviewLint.Proofs.Spreads

/-!
# The search without memory

`Document.search` looks for an operation above a fragment in the plainest way: it goes
depth first through the users of a fragment, keeps the path that led to it, remembers
nothing else, and gives up at the first fragment that is on the path already. It is
defined on the graph of fragments; usages, placements and answers of earlier searches
play no part in it.

The names that are not on the path become fewer with every step, so the search ends.
`Document.searchFrom_eq_ite` states its rule in terms of the path alone.
-/

namespace PreviewLint

open Reachability

/-- Whether one of some definitions is an operation, or a fragment for which `visit` says so. -/
def anyUser {m : Type → Type} [Monad m] (visit : String → m Bool) : List Container → m Bool
  | [] => pure false
  | .operation _ :: _ => pure true
  | .fragment fragment :: users => do
    if ← visit fragment.name then pure true else anyUser visit users

theorem anyAtRoot_eq_anyUser {m : Type → Type} [Monad m] (visit : String → m Bool)
    (usages : List Usage) :
    anyAtRoot visit usages = anyUser visit (usages.filterMap Usage.container?) := by
  induction usages with
  | nil => rfl
  | cons usage usages ih =>
      rw [List.filterMap_cons, Usage.container?, anyAtRoot]
      cases Placement.ofAncestors usage.ancestors with
      | nested => exact ih
      | root container =>
          cases container with
          | operation operation => rfl
          | fragment fragment => simp only [Placement.container?, anyUser, ih]

namespace Document

/-- The names that a search for a fragment may still go to from the end of a path. -/
def unvisited (document : Document) (asked : String) (path : List String) : List String :=
  (asked :: document.fragmentNames).filter (· ∉ path)

theorem unvisited_append_singleton (document : Document) (asked name : String)
    (path : List String) :
    document.unvisited asked (path ++ [name]) = without name (document.unvisited asked path) := by
  simp only [without, unvisited, List.filter_filter]
  apply List.filter_congr
  intro other _
  simp [and_comm]

theorem length_unvisited_lt {document : Document} {asked name : String} {path : List String}
    (member : name ∈ document.unvisited asked path) :
    (document.unvisited asked (path ++ [name])).length <
      (document.unvisited asked path).length := by
  rw [unvisited_append_singleton]
  exact length_without_lt member

/--
Whether a fragment is used at the root, with nothing remembered. `path` leads from the
fragment that was asked for to this one.
-/
def searchFrom (document : Document) (asked : String) (path : List String) (name : String) :
    Except (List String) Bool :=
  if _member : name ∈ document.unvisited asked path then
    anyUser (document.searchFrom asked (path ++ [name])) (document.users name)
  else .error (path ++ [name])
termination_by (document.unvisited asked path).length
decreasing_by exact length_unvisited_lt _member

/-- Whether a fragment is used at the root of an operation, with nothing remembered. -/
def search (document : Document) (name : String) : Except (List String) Bool :=
  document.searchFrom name [] name

theorem mem_unvisited {document : Document} {asked name : String} {path : List String} :
    name ∈ document.unvisited asked path ↔
      name ∈ asked :: document.fragmentNames ∧ name ∉ path := by
  simp [unvisited]

/-- A search ends with the path if the fragment is on it, and else goes on to its users. -/
theorem searchFrom_eq_ite {document : Document} {asked name : String} {path : List String}
    (known : name ∈ asked :: document.fragmentNames) :
    document.searchFrom asked path name =
      if name ∈ path then .error (path ++ [name])
      else anyUser (document.searchFrom asked (path ++ [name])) (document.users name) := by
  rw [searchFrom]
  by_cases visited : name ∈ path
  · rw [if_pos visited, dif_neg fun member => (mem_unvisited.mp member).2 visited]
  · rw [if_neg visited, dif_pos (mem_unvisited.mpr ⟨known, visited⟩)]

theorem fragmentName_mem {document : Document} {fragment : Fragment} {name : String}
    (user : .fragment fragment ∈ document.users name) :
    fragment.name ∈ document.fragmentNames :=
  List.mem_map.mpr ⟨fragment, (fragment_mem_users.mp user).1, rfl⟩

end Document

end PreviewLint
