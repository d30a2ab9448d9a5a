import Mathlib.Data.List.Forall2
import PreviewLint.Proofs.Resemblance

/-!
# Inline fragments are transparent

`Document.flat` puts the selections of every inline fragment in the place of the inline
fragment, at every depth. Flattening shortens the list of nodes above a node and changes the
selection sets in it, but not the order of the fields and spreads and not the root at which
they stand. A flat document therefore resembles the document, and is validated alike.
-/

namespace PreviewLint

mutual

/-- A selection without inline fragments: itself, or what stands inside. -/
def Selection.flat : Selection → List Selection
  | .field head selections => [.field head (Selection.flatAll selections)]
  | .inline _ selections => Selection.flatAll selections
  | .spread head => [.spread head]

/-- Some selections without inline fragments. -/
def Selection.flatAll : List Selection → List Selection
  | [] => []
  | selection :: selections => Selection.flat selection ++ Selection.flatAll selections

end

/-- An operation without inline fragments. -/
def Operation.flat (operation : Operation) : Operation :=
  { operation with selections := Selection.flatAll operation.selections }

/-- A fragment without inline fragments. -/
def Fragment.flat (fragment : Fragment) : Fragment :=
  { fragment with selections := Selection.flatAll fragment.selections }

/-- A definition without inline fragments. -/
def Definition.flat : Definition → Definition
  | .operation defined => .operation defined.flat
  | .fragment defined => .fragment defined.flat
  | .typeSystem defined => .typeSystem defined

/-- A document without inline fragments. -/
def Document.flat (document : Document) : Document := ⟨document.definitions.map Definition.flat⟩

/-- A definition that has selections, without inline fragments. -/
def Container.flat : Container → Container
  | .operation defined => .operation defined.flat
  | .fragment defined => .fragment defined.flat

theorem Container.label_flat (container : Container) : container.flat.label = container.label := by
  cases container <;> rfl

namespace Selection

theorem visitsAll_append (above : List Ancestor) (front back : List Selection) :
    visitsAll above (front ++ back) = visitsAll above front ++ visitsAll above back := by
  induction front with
  | nil => rfl
  | cons selection front ih =>
      rw [List.cons_append, visitsAll, visitsAll, ih, List.append_assoc]

theorem rootsAll_append (front back : List Selection) :
    rootsAll (front ++ back) = rootsAll front ++ rootsAll back := by
  induction front with
  | nil => rfl
  | cons selection front ih =>
      rw [List.cons_append, rootsAll, rootsAll, ih, List.append_assoc]

theorem subjectsAll_append (root : Option Container) (front back : List Selection) :
    subjectsAll root (front ++ back) = subjectsAll root front ++ subjectsAll root back := by
  induction front with
  | nil => rfl
  | cons selection front ih =>
      rw [List.cons_append, subjectsAll, subjectsAll, ih, List.append_assoc]

/-! ## What flattening keeps -/

mutual

/-- No inline fragment is left, whatever the nodes above are. -/
theorem inline_notMem_visits_flat (above : List Ancestor) (selection : Selection)
    {head : InlineFragment} {around : List Ancestor} :
    (.inline head, around) ∉ visitsAll above selection.flat := by
  cases selection with
  | field _ selections =>
      simp [flat, visitsAll, visits, inline_notMem_visits_flatAll]
  | inline _ selections => exact inline_notMem_visits_flatAll above selections
  | spread _ => simp [flat, visitsAll, visits]

theorem inline_notMem_visits_flatAll (above : List Ancestor) (selections : List Selection)
    {head : InlineFragment} {around : List Ancestor} :
    (.inline head, around) ∉ visitsAll above (flatAll selections) := by
  cases selections with
  | nil => simp [flatAll, visitsAll]
  | cons selection selections =>
      rw [flatAll, visitsAll_append, List.mem_append, not_or]
      exact ⟨inline_notMem_visits_flat above selection,
        inline_notMem_visits_flatAll above selections⟩

end

mutual

theorem rootsAll_flat (selection : Selection) : rootsAll selection.flat = selection.roots := by
  cases selection with
  | field _ _ => simp [flat, rootsAll, roots]
  | inline _ selections => rw [flat, roots, rootsAll_flatAll]
  | spread _ => simp [flat, rootsAll, roots]

/-- The same fields and spreads stand at the root, in the same order. -/
theorem rootsAll_flatAll (selections : List Selection) :
    rootsAll (flatAll selections) = rootsAll selections := by
  cases selections with
  | nil => rfl
  | cons selection selections =>
      rw [flatAll, rootsAll_append, rootsAll, rootsAll_flat, rootsAll_flatAll]

end

mutual

theorem subjectsAll_flat (root : Option Container) (selection : Selection) :
    subjectsAll root selection.flat = selection.subjects root := by
  cases selection with
  | field _ selections =>
      simp only [flat, subjectsAll, subjects, List.append_nil, subjectsAll_flatAll]
  | inline _ selections => rw [flat, subjects, subjectsAll_flatAll]
  | spread _ => rfl

/-- The same fields are checked, in the same order and at the same root. -/
theorem subjectsAll_flatAll (root : Option Container) (selections : List Selection) :
    subjectsAll root (flatAll selections) = subjectsAll root selections := by
  cases selections with
  | nil => rfl
  | cons selection selections =>
      rw [flatAll, subjectsAll_append, subjectsAll, subjectsAll_flat, subjectsAll_flatAll]

end

mutual

/-- A root is seen by its label, so subjects at roots of one label resemble each other. -/
theorem subjects_resemble {root other : Option Container}
    (labels : root.map Container.label = other.map Container.label) (selection : Selection) :
    List.Forall₂ Subject.Resembles (selection.subjects root) (selection.subjects other) := by
  cases selection with
  | field head selections =>
      exact .cons (.field head labels) (subjectsAll_resemble rfl selections)
  | inline _ selections => exact subjectsAll_resemble labels selections
  | spread _ => exact .nil

theorem subjectsAll_resemble {root other : Option Container}
    (labels : root.map Container.label = other.map Container.label)
    (selections : List Selection) :
    List.Forall₂ Subject.Resembles (subjectsAll root selections)
      (subjectsAll other selections) := by
  cases selections with
  | nil => exact .nil
  | cons selection selections =>
      exact List.rel_append (subjects_resemble labels selection)
        (subjectsAll_resemble labels selections)

end

end Selection

theorem Definition.subjects_flat_resemble (definition : Definition) :
    List.Forall₂ Subject.Resembles definition.flat.subjects definition.subjects := by
  cases definition with
  | operation defined =>
      refine .cons (.operation rfl rfl) (List.rel_append ?_ ?_)
      · exact List.forall₂_same.mpr fun subject _ => .refl subject
      · rw [Operation.flat, Selection.subjectsAll_flatAll]
        exact Selection.subjectsAll_resemble (by rfl) defined.selections
  | fragment defined =>
      rw [flat, subjects, Fragment.flat, Selection.subjectsAll_flatAll, subjects]
      exact Selection.subjectsAll_resemble (by rfl) defined.selections
  | typeSystem defined => exact .nil

theorem Definition.inline_notMem_visits_flat (definition : Definition) {head : InlineFragment}
    {above : List Ancestor} : (.inline head, above) ∉ definition.flat.visits := by
  cases definition with
  | operation defined =>
      simp [flat, visits, Selection.visitsSet, Operation.flat,
        Selection.inline_notMem_visits_flatAll]
  | fragment defined =>
      simp [flat, visits, Selection.visitsSet, Fragment.flat,
        Selection.inline_notMem_visits_flatAll]
  | typeSystem defined => simp [flat, visits]

namespace Document

variable (document : Document)

theorem operations_flat : document.flat.operations = document.operations.map Operation.flat := by
  rw [operations, operations, flat, List.filterMap_map, List.map_filterMap]
  congr 1
  funext definition
  cases definition <;> rfl

theorem containers_flat : document.flat.containers = document.containers.map Container.flat := by
  rw [containers, containers, flat, List.filterMap_map, List.map_filterMap]
  congr 1
  funext definition
  cases definition <;> rfl

theorem subjects_flat_resemble :
    List.Forall₂ Subject.Resembles document.flat.subjects document.subjects := by
  obtain ⟨definitions⟩ := document
  rw [subjects, subjects, flat]
  induction definitions with
  | nil => exact .nil
  | cons definition definitions ih =>
      simp only [List.map_cons, List.flatMap_cons]
      exact List.rel_append definition.subjects_flat_resemble ih

theorem roots_flat :
    document.flat.roots = document.roots.map fun (container, node) => (container.flat, node) := by
  have each : ∀ container : Container,
      (Selection.rootsAll container.flat.selections).map (container.flat, ·) =
        ((Selection.rootsAll container.selections).map (container, ·)).map
          fun (container, node) => (container.flat, node) := by
    intro container
    have roots : Selection.rootsAll container.flat.selections =
        Selection.rootsAll container.selections := by
      cases container <;> exact Selection.rootsAll_flatAll _
    rw [roots, List.map_map]
    rfl
  rw [roots, roots, containers_flat, List.flatMap_map, List.map_flatMap]
  simp only [each]

theorem users_flat (name : String) :
    document.flat.users name = (document.users name).map Container.flat := by
  rw [users, users, roots_flat, List.filterMap_map, List.map_filterMap]
  congr 1
  funext entry
  obtain ⟨container, node⟩ := entry
  cases node with
  | spread spread =>
      by_cases named : spread.name = name <;> simp [userOf?, named]
  | _ => rfl

theorem flat_resembles : document.flat.Resembles document := by
  refine ⟨?_, document.subjects_flat_resemble, ?_⟩
  · rw [operations_flat, List.length_map]
  · intro name
    rw [users_flat, List.map_map]
    congr 1
    exact funext Container.label_flat

/--
Flattening leaves no inline fragment, and every validation answers the same for the flat
document.
-/
theorem validate_flat (given : Variables) :
    (∀ head above, (.inline head, above) ∉ document.flat.visits) ∧
      document.flat.validate given = document.validate given := by
  refine ⟨?_, document.flat_resembles.validate_eq given⟩
  intro head above visited
  rcases mem_visits.mp visited with ⟨definition, member, visited⟩
  rcases List.mem_map.mp member with ⟨original, _, rfl⟩
  exact original.inline_notMem_visits_flat visited

end Document

end PreviewLint
