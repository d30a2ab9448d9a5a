import Mathlib.Logic.Relation
import PreviewLint.Proofs.Roots

/-!
# The graph of fragments

Fragments that spread each other at their root form a graph. `Document.SpreadIn` leads
from a fragment to the fragments that spread it, so it points the way of a search: up,
toward an operation. `Document.RootReachable` says that the way up ends at an
operation; it is read from the top, and no search is involved.

`Document.users` lists the definitions that spread a fragment at their root, once for
each spread. It is what a search finds out about a fragment from its usages.
-/

namespace PreviewLint

namespace Selection

/-- A spread of a fragment stands at the root of the selections. -/
def RootSpreads (selections : List Selection) (name : String) : Prop :=
  ∃ spread, Node.spread spread ∈ rootsAll selections ∧ spread.name = name

end Selection

/-- The definition at whose root a usage stands. -/
def Usage.container? (usage : Usage) : Option Container :=
  (Placement.ofAncestors usage.ancestors).container?

namespace Document

/-- The definition that spreads a fragment, if what stands at its root is such a spread. -/
def userOf? (name : String) : Container × Node → Option Container
  | (container, .spread spread) => if spread.name = name then some container else none
  | (_, .operation _) | (_, .variable _) | (_, .fragment _) | (_, .field _) | (_, .inline _) =>
    none

/-- The definitions that spread a fragment at their root, in order. -/
def users (document : Document) (name : String) : List Container :=
  document.roots.filterMap (userOf? name)

/-- A fragment is spread at the root of another one. -/
def SpreadIn (document : Document) (name user : String) : Prop :=
  ∃ fragment ∈ document.fragments,
    fragment.name = user ∧ Selection.RootSpreads fragment.selections name

/-- Spreads at roots lead from an operation down to a fragment. -/
inductive RootReachable (document : Document) : String → Prop where
  | operation {operation : Operation} {name : String} (member : operation ∈ document.operations)
      (spreads : Selection.RootSpreads operation.selections name) : RootReachable document name
  | fragment {fragment : Fragment} {name : String} (member : fragment ∈ document.fragments)
      (spreads : Selection.RootSpreads fragment.selections name)
      (reachable : RootReachable document fragment.name) : RootReachable document name

/-- A fragment, or one from which it is reached through spreads at roots. -/
def Above (document : Document) (name other : String) : Prop :=
  Relation.ReflTransGen document.SpreadIn name other

/-- A fragment is reached from itself through spreads at roots. -/
def OnCycle (document : Document) (name : String) : Prop :=
  Relation.TransGen document.SpreadIn name name

variable {document : Document}

theorem mem_users {container : Container} {name : String} :
    container ∈ document.users name ↔
      container ∈ document.containers ∧ Selection.RootSpreads container.selections name := by
  simp only [users, List.mem_filterMap, Selection.RootSpreads]
  constructor
  · rintro ⟨⟨user, node⟩, root, found⟩
    cases node with
    | spread spread =>
        simp only [userOf?, Option.ite_none_right_eq_some, Option.some.injEq] at found
        rcases found with ⟨named, rfl⟩
        rcases mem_roots.mp root with ⟨member, root⟩
        exact ⟨member, spread, root, named⟩
    | _ => simp [userOf?] at found
  · rintro ⟨member, spread, root, named⟩
    exact ⟨(container, .spread spread), mem_roots.mpr ⟨member, root⟩, if_pos named⟩

theorem operation_mem_users {operation : Operation} {name : String} :
    .operation operation ∈ document.users name ↔
      operation ∈ document.operations ∧ Selection.RootSpreads operation.selections name := by
  rw [mem_users, operation_mem_containers, Container.selections]

theorem fragment_mem_users {fragment : Fragment} {name : String} :
    .fragment fragment ∈ document.users name ↔
      fragment ∈ document.fragments ∧ Selection.RootSpreads fragment.selections name := by
  rw [mem_users, fragment_mem_containers, Container.selections]

theorem spreadIn_of_mem_users {fragment : Fragment} {name : String}
    (user : .fragment fragment ∈ document.users name) : document.SpreadIn name fragment.name := by
  rcases fragment_mem_users.mp user with ⟨member, spreads⟩
  exact ⟨fragment, member, rfl, spreads⟩

theorem exists_user_of_spreadIn {name user : String} (spread : document.SpreadIn name user) :
    ∃ fragment, .fragment fragment ∈ document.users name ∧ fragment.name = user := by
  rcases spread with ⟨fragment, member, named, spreads⟩
  exact ⟨fragment, fragment_mem_users.mpr ⟨member, spreads⟩, named⟩

theorem userOf_root (name : String) (visit : Visit) :
    (visit.usage? name).bind Usage.container? = visit.root?.bind (userOf? name) := by
  obtain ⟨node, above⟩ := visit
  cases node with
  | spread spread =>
      by_cases named : spread.name = name <;>
        cases placed : (Placement.ofAncestors above).container? <;>
        simp [Visit.usage?, Visit.root?, Usage.container?, userOf?, named, placed]
  | field head =>
      cases placed : (Placement.ofAncestors above).container? <;>
        simp [Visit.usage?, Visit.root?, userOf?, placed]
  | _ => rfl

/-- The usages that are placed at a root are the users, in order. -/
theorem filterMap_container_usagesOf (document : Document) (name : String) :
    (document.usagesOf name).filterMap Usage.container? = document.users name := by
  rw [usagesOf_eq_filterMap, users, ← filterMap_root_visits, List.filterMap_filterMap,
    List.filterMap_filterMap]
  simp only [userOf_root]

end Document

end PreviewLint
