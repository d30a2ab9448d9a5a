import Mathlib.Data.List.Basic
import PreviewLint.Preview.Placement
import PreviewLint.Proofs.Walk

/-!
# What stands at the root of a definition

The placement of a field or a spread is read off the nodes above it. This file gives
the same notion from the top: the root of a selection set holds its fields and
spreads, and those at the root of its inline fragments; fields are never entered. The
visits that are placed at the root of a definition are exactly these, in order.
-/

namespace PreviewLint

mutual

/-- The fields and spreads at the root of a selection. -/
def Selection.roots : Selection → List Node
  | .field head _ => [.field head]
  | .inline _ selections => Selection.rootsAll selections
  | .spread head => [.spread head]

/-- The fields and spreads at the root of some selections. -/
def Selection.rootsAll : List Selection → List Node
  | [] => []
  | selection :: selections => Selection.roots selection ++ Selection.rootsAll selections

end

mutual

/-- The fields of a selection, at any depth. -/
def Selection.fields : Selection → List Field
  | .field head selections => head :: Selection.fieldsAll selections
  | .inline _ selections => Selection.fieldsAll selections
  | .spread _ => []

/-- The fields of some selections, at any depth. -/
def Selection.fieldsAll : List Selection → List Field
  | [] => []
  | selection :: selections => Selection.fields selection ++ Selection.fieldsAll selections

end

namespace Container

/-- The selections of a definition. -/
def selections : Container → List Selection
  | operation defined => defined.selections
  | fragment defined => defined.selections

end Container

namespace Placement

/-- The definition at whose root something stands. -/
def container? : Placement → Option Container
  | root container => some container
  | nested => none

theorem container?_eq_some_iff {placement : Placement} {container : Container} :
    placement.container? = some container ↔ placement = .root container := by
  cases placement <;> simp [container?]

end Placement

/-- A definition that has selections. -/
def Definition.container? : Definition → Option Container
  | .operation defined => some (.operation defined)
  | .fragment defined => some (.fragment defined)
  | .typeSystem _ => none

namespace Document

/-- The definitions of a document that have selections, in order. -/
def containers (document : Document) : List Container :=
  document.definitions.filterMap Definition.container?

/-- What stands at the root of each definition, in order. -/
def roots (document : Document) : List (Container × Node) :=
  document.containers.flatMap fun container =>
    (Selection.rootsAll container.selections).map (container, ·)

/-- The fields of a document, at any depth of any definition. -/
def fields (document : Document) : List Field :=
  document.containers.flatMap fun container => Selection.fieldsAll container.selections

theorem operation_mem_containers {document : Document} {operation : Operation} :
    .operation operation ∈ document.containers ↔ operation ∈ document.operations := by
  simp only [containers, operations, List.mem_filterMap]
  apply exists_congr
  intro definition
  cases definition <;> simp [Definition.container?, Definition.operation?]

theorem fragment_mem_containers {document : Document} {fragment : Fragment} :
    .fragment fragment ∈ document.containers ↔ fragment ∈ document.fragments := by
  simp only [containers, fragments, List.mem_filterMap]
  apply exists_congr
  intro definition
  cases definition <;> simp [Definition.container?, Definition.fragment?]

theorem mem_roots {document : Document} {container : Container} {node : Node} :
    (container, node) ∈ document.roots ↔
      container ∈ document.containers ∧ node ∈ Selection.rootsAll container.selections := by
  simp only [roots, List.mem_flatMap, List.mem_map, Prod.mk.injEq]
  constructor
  · rintro ⟨_, member, _, root, rfl, rfl⟩
    exact ⟨member, root⟩
  · rintro ⟨member, root⟩
    exact ⟨container, member, node, root, rfl, rfl⟩

end Document

/-! ## Placement from below and from above -/

namespace Visit

/-- The field or spread that is visited, and the definition at whose root it stands. -/
def root? : Visit → Option (Container × Node)
  | (.field head, above) =>
    (Placement.ofAncestors above).container?.map fun container => (container, .field head)
  | (.spread head, above) =>
    (Placement.ofAncestors above).container?.map fun container => (container, .spread head)
  | (.operation _, _) | (.variable _, _) | (.fragment _, _) | (.inline _, _) => none

/-- The field that is visited. -/
def field? : Visit → Option Field
  | (.field head, _) => some head
  | (.operation _, _) | (.variable _, _) | (.fragment _, _) | (.inline _, _)
  | (.spread _, _) => none

end Visit

namespace Selection

mutual

theorem filterMap_root_visits (above : List Ancestor) (selection : Selection) :
    (selection.visits above).filterMap Visit.root? =
      (Placement.ofAncestors above).container?.toList.flatMap fun container =>
        selection.roots.map (container, ·) := by
  cases selection with
  | field head selections =>
      -- Whatever is below a field is nested, so only the field itself is left.
      have below := filterMap_root_visitsAll (.selectionSet selections :: .field head :: above)
        selections
      simp only [Placement.ofAncestors, Placement.container?, Option.toList_none,
        List.flatMap_nil] at below
      cases placed : (Placement.ofAncestors above).container? <;>
        simp [visits, roots, Visit.root?, placed, below]
  | inline head selections =>
      have below := filterMap_root_visitsAll (.selectionSet selections :: .inline head :: above)
        selections
      simp only [Placement.ofAncestors] at below
      rw [visits, List.filterMap_cons_none rfl, below, roots]
  | spread head =>
      cases placed : (Placement.ofAncestors above).container? <;>
        simp [visits, roots, Visit.root?, placed]

theorem filterMap_root_visitsAll (above : List Ancestor) (selections : List Selection) :
    (visitsAll above selections).filterMap Visit.root? =
      (Placement.ofAncestors above).container?.toList.flatMap fun container =>
        (rootsAll selections).map (container, ·) := by
  cases selections with
  | nil => cases (Placement.ofAncestors above).container? <;> simp [visitsAll, rootsAll]
  | cons selection selections =>
      simp only [visitsAll, rootsAll, List.filterMap_append, List.map_append]
      rw [filterMap_root_visits, filterMap_root_visitsAll]
      cases (Placement.ofAncestors above).container? <;> simp

end

mutual

theorem filterMap_field_visits (above : List Ancestor) (selection : Selection) :
    (selection.visits above).filterMap Visit.field? = selection.fields := by
  cases selection with
  | field head selections =>
      simp [visits, fields, Visit.field?, filterMap_field_visitsAll]
  | inline head selections =>
      rw [visits, List.filterMap_cons_none rfl, fields, filterMap_field_visitsAll]
  | spread head => simp [visits, fields, Visit.field?]

theorem filterMap_field_visitsAll (above : List Ancestor) (selections : List Selection) :
    (visitsAll above selections).filterMap Visit.field? = fieldsAll selections := by
  cases selections with
  | nil => simp [visitsAll, fieldsAll]
  | cons selection selections =>
      simp only [visitsAll, fieldsAll, List.filterMap_append]
      rw [filterMap_field_visits, filterMap_field_visitsAll]

end

end Selection

namespace Definition

theorem filterMap_root_visits (definition : Definition) :
    definition.visits.filterMap Visit.root? =
      definition.container?.toList.flatMap fun container =>
        (Selection.rootsAll container.selections).map (container, ·) := by
  cases definition with
  | operation defined =>
      simp [visits, container?, Selection.visitsSet, Selection.filterMap_root_visitsAll,
        List.filterMap_cons, Placement.ofAncestors, Placement.container?, Visit.root?, Container.selections,
        Function.comp_def]
  | fragment defined =>
      simp [visits, container?, Selection.visitsSet, Selection.filterMap_root_visitsAll,
        List.filterMap_cons, Placement.ofAncestors, Placement.container?, Visit.root?, Container.selections]
  | typeSystem defined => simp [visits, container?]

theorem filterMap_field_visits (definition : Definition) :
    definition.visits.filterMap Visit.field? =
      definition.container?.toList.flatMap fun container =>
        Selection.fieldsAll container.selections := by
  cases definition with
  | operation defined =>
      simp [visits, container?, Selection.visitsSet, Selection.filterMap_field_visitsAll,
        List.filterMap_cons, Visit.field?, Container.selections, Function.comp_def]
  | fragment defined =>
      simp [visits, container?, Selection.visitsSet, Selection.filterMap_field_visitsAll,
        List.filterMap_cons, Visit.field?, Container.selections]
  | typeSystem defined => simp [visits, container?]

end Definition

namespace Document

/-- The visits at the root of a definition are what stands there from the top, in order. -/
theorem filterMap_root_visits (document : Document) :
    document.visits.filterMap Visit.root? = document.roots := by
  rw [visits, List.filterMap_flatMap, roots, containers, List.filterMap_eq_flatMap_toList,
    List.flatMap_assoc]
  simp only [Definition.filterMap_root_visits]

/-- The fields that are visited are the fields of the document, in order. -/
theorem filterMap_field_visits (document : Document) :
    document.visits.filterMap Visit.field? = document.fields := by
  rw [visits, List.filterMap_flatMap, fields, containers, List.filterMap_eq_flatMap_toList,
    List.flatMap_assoc]
  simp only [Definition.filterMap_field_visits]

theorem mem_fields {document : Document} {field : Field} :
    field ∈ document.fields ↔ ∃ above, (.field field, above) ∈ document.visits := by
  rw [← filterMap_field_visits, List.mem_filterMap]
  constructor
  · rintro ⟨⟨node, above⟩, visited, found⟩
    cases node with
    | field head =>
        cases found
        exact ⟨above, visited⟩
    | _ => cases found
  · rintro ⟨above, visited⟩
    exact ⟨(.field field, above), visited, rfl⟩

theorem field_mem_roots {document : Document} {container : Container} {field : Field} :
    (container, .field field) ∈ document.roots ↔
      ∃ above, (.field field, above) ∈ document.visits ∧
        Placement.ofAncestors above = .root container := by
  rw [← filterMap_root_visits, List.mem_filterMap]
  constructor
  · rintro ⟨⟨node, above⟩, visited, found⟩
    cases node with
    | field head =>
        simp only [Visit.root?] at found
        cases placed : Placement.ofAncestors above with
        | nested => simp [placed, Placement.container?] at found
        | root other =>
            simp only [placed, Placement.container?, Option.map_some, Option.some.injEq,
              Prod.mk.injEq, Node.field.injEq] at found
            rcases found with ⟨rfl, rfl⟩
            exact ⟨above, visited, placed⟩
    | spread head =>
        simp only [Visit.root?] at found
        cases placed : (Placement.ofAncestors above).container? <;> simp [placed] at found
    | _ => cases found
  · rintro ⟨above, visited, placed⟩
    exact ⟨(.field field, above), visited, by simp [Visit.root?, placed, Placement.container?]⟩

theorem mem_fields_of_mem_roots {document : Document} {container : Container} {field : Field}
    (root : (container, .field field) ∈ document.roots) : field ∈ document.fields := by
  rcases field_mem_roots.mp root with ⟨above, visited, _⟩
  exact mem_fields.mpr ⟨above, visited⟩

end Document

end PreviewLint
