import PreviewLint.Preview.Usage
import PreviewLint.Proofs.Fields
import PreviewLint.Proofs.Walker

/-!
# The visits of a walk

This file lists the visits of a walk without a monad: `Document.visits` holds each
node of a document with what stands above it, by recursion on the tree. A walk is
the same as visiting the nodes of this list one after the other, whatever the
visitor does, so statements about a walk become statements about a list.

The usages of a fragment are the spreads of its name in that list, and an index finds
them whatever it was asked for before.
-/

namespace PreviewLint

/-- A node that is visited, and what stands above it, the nearest first. -/
abbrev Visit := Node × List Ancestor

mutual

/-- The visits of a walk through one selection. -/
def Selection.visits (above : List Ancestor) : Selection → List Visit
  | .field head selections =>
    (.field head, above) ::
      Selection.visitsAll (.selectionSet selections :: .field head :: above) selections
  | .inline head selections =>
    (.inline head, above) ::
      Selection.visitsAll (.selectionSet selections :: .inline head :: above) selections
  | .spread head => [(.spread head, above)]

/-- The visits of a walk through some selections. -/
def Selection.visitsAll (above : List Ancestor) : List Selection → List Visit
  | [] => []
  | selection :: selections =>
    Selection.visits above selection ++ Selection.visitsAll above selections

end

namespace Selection

/-- The visits of a walk through the selection set of a definition. -/
def visitsSet (above : List Ancestor) (selections : List Selection) : List Visit :=
  visitsAll (.selectionSet selections :: above) selections

end Selection

/-- The visits of a walk through one definition. -/
def Definition.visits : Definition → List Visit
  | .operation defined =>
    (.operation defined, [.document]) ::
      (defined.variableDefinitions.map fun definition =>
        (.variable definition, [.operation defined, .document])) ++
      Selection.visitsSet [.operation defined, .document] defined.selections
  | .fragment defined =>
    (.fragment defined, [.document]) ::
      Selection.visitsSet [.fragment defined, .document] defined.selections
  | .typeSystem _ => []

/-- The visits of a walk through a document. -/
def Document.visits (document : Document) : List Visit :=
  document.definitions.flatMap Definition.visits

section Descend

variable {m : Type → Type} [Monad m] [LawfulMonad m] (visit : Node → List Ancestor → m Unit)

mutual

theorem Selection.descend_eq_forM (above : List Ancestor) (selection : Selection) :
    selection.descend visit above =
      forM (selection.visits above) fun (node, above) => visit node above := by
  cases selection with
  | field head selections =>
      simp only [Selection.descend, Selection.visits, List.forM_cons]
      rw [Selection.descendAll_eq_forM]
  | inline head selections =>
      simp only [Selection.descend, Selection.visits, List.forM_cons]
      rw [Selection.descendAll_eq_forM]
  | spread head => simp [Selection.descend, Selection.visits]

theorem Selection.descendAll_eq_forM (above : List Ancestor) (selections : List Selection) :
    Selection.descendAll visit above selections =
      forM (Selection.visitsAll above selections) fun (node, above) => visit node above := by
  cases selections with
  | nil => simp [Selection.descendAll, Selection.visitsAll]
  | cons selection selections =>
      simp only [Selection.descendAll, Selection.visitsAll, List.forM_append]
      rw [Selection.descend_eq_forM, Selection.descendAll_eq_forM]

end

theorem Definition.descend_eq_forM (definition : Definition) :
    definition.descend visit =
      forM definition.visits fun (node, above) => visit node above := by
  cases definition with
  | operation defined =>
      simp [Definition.descend, Definition.visits, Selection.descendSet, Selection.visitsSet,
        Selection.descendAll_eq_forM]
  | fragment defined =>
      simp [Definition.descend, Definition.visits, Selection.descendSet, Selection.visitsSet,
        Selection.descendAll_eq_forM]
  | typeSystem defined => simp [Definition.descend, Definition.visits]

namespace Document

theorem descend_eq_forM_visits (document : Document) :
    document.descend visit = forM document.visits fun (node, above) => visit node above := by
  obtain ⟨definitions⟩ := document
  simp only [descend, visits, List.forM_eq_forM]
  induction definitions with
  | nil => rfl
  | cons definition definitions ih =>
      simp only [List.forM_cons, List.flatMap_cons, List.forM_append]
      rw [Definition.descend_eq_forM, ih]

end Document

end Descend

/-- A walk visits the nodes of the list of visits, one after the other. -/
theorem Document.walk_eq_forM_visits {σ ε : Type} (document : Document) (visit : Visitor σ ε) :
    document.walk visit = forM document.visits fun (node, above) => visit node above := by
  rw [walk_eq_descend, descend_eq_forM_visits]

/-! ## Where operations and variables are visited -/

def Node.isSelection : Node → Bool
  | .field _ | .inline _ | .spread _ => true
  | .operation _ | .variable _ | .fragment _ => false

mutual

theorem Selection.isSelection_of_mem_visits {above : List Ancestor} {selection : Selection}
    {visit : Visit} (member : visit ∈ selection.visits above) : visit.1.isSelection := by
  cases selection with
  | field head selections =>
      rcases List.mem_cons.mp member with rfl | member
      · rfl
      · exact Selection.isSelection_of_mem_visitsAll member
  | inline head selections =>
      rcases List.mem_cons.mp member with rfl | member
      · rfl
      · exact Selection.isSelection_of_mem_visitsAll member
  | spread head =>
      rw [List.mem_singleton.mp member]
      rfl

theorem Selection.isSelection_of_mem_visitsAll {above : List Ancestor}
    {selections : List Selection} {visit : Visit}
    (member : visit ∈ Selection.visitsAll above selections) : visit.1.isSelection := by
  cases selections with
  | nil => cases member
  | cons selection selections =>
      rcases List.mem_append.mp member with member | member
      · exact Selection.isSelection_of_mem_visits member
      · exact Selection.isSelection_of_mem_visitsAll member

end

/-- Besides its selections, a definition is visited itself and with its variables. -/
theorem Definition.mem_visits_cases (definition : Definition) {visit : Visit}
    (member : visit ∈ definition.visits) :
    visit.1.isSelection ∨
      (∃ operation, definition = .operation operation ∧
        (visit = (.operation operation, [.document]) ∨
          ∃ declared ∈ operation.variableDefinitions,
            visit = (.variable declared, [.operation operation, .document]))) ∨
      ∃ fragment, definition = .fragment fragment ∧ visit = (.fragment fragment, [.document]) := by
  cases definition with
  | operation defined =>
      rcases List.mem_cons.mp member with same | member
      · exact Or.inr (Or.inl ⟨defined, rfl, Or.inl same⟩)
      · rcases List.mem_append.mp member with member | member
        · rcases List.mem_map.mp member with ⟨declared, present, same⟩
          exact Or.inr (Or.inl ⟨defined, rfl, Or.inr ⟨declared, present, same.symm⟩⟩)
        · exact Or.inl (Selection.isSelection_of_mem_visitsAll member)
  | fragment defined =>
      rcases List.mem_cons.mp member with same | member
      · exact Or.inr (Or.inr ⟨defined, rfl, same⟩)
      · exact Or.inl (Selection.isSelection_of_mem_visitsAll member)
  | typeSystem defined => cases member

namespace Document

variable {document : Document} {above : List Ancestor}

theorem mem_visits {visit : Visit} :
    visit ∈ document.visits ↔ ∃ definition ∈ document.definitions, visit ∈ definition.visits :=
  List.mem_flatMap

theorem mem_operations {operation : Operation} :
    operation ∈ document.operations ↔ .operation operation ∈ document.definitions := by
  simp only [operations, List.mem_filterMap]
  constructor
  · rintro ⟨definition, member, defined⟩
    cases definition with
    | operation other =>
        cases defined
        exact member
    | fragment other => cases defined
    | typeSystem other => cases defined
  · intro member
    exact ⟨.operation operation, member, rfl⟩

theorem mem_fragments {fragment : Fragment} :
    fragment ∈ document.fragments ↔ .fragment fragment ∈ document.definitions := by
  simp only [fragments, List.mem_filterMap]
  constructor
  · rintro ⟨definition, member, defined⟩
    cases definition with
    | fragment other =>
        cases defined
        exact member
    | operation other => cases defined
    | typeSystem other => cases defined
  · intro member
    exact ⟨.fragment fragment, member, rfl⟩

theorem operation_mem_visits {operation : Operation} :
    (.operation operation, above) ∈ document.visits ↔
      operation ∈ document.operations ∧ above = [.document] := by
  rw [mem_visits, mem_operations]
  constructor
  · rintro ⟨definition, member, visited⟩
    rcases definition.mem_visits_cases visited with selected | ⟨defined, rfl, same | ⟨_, _, same⟩⟩ |
      ⟨_, _, same⟩
    · cases selected
    · cases same
      exact ⟨member, rfl⟩
    · cases same
    · cases same
  · rintro ⟨member, rfl⟩
    exact ⟨.operation operation, member, List.mem_cons_self⟩

theorem variable_mem_visits {definition : VariableDefinition} :
    (.variable definition, above) ∈ document.visits ↔
      ∃ operation ∈ document.operations, definition ∈ operation.variableDefinitions ∧
        above = [.operation operation, .document] := by
  simp only [mem_visits, mem_operations]
  constructor
  · rintro ⟨definition, member, visited⟩
    rcases definition.mem_visits_cases visited with selected | ⟨defined, rfl, same |
      ⟨_, declared, same⟩⟩ | ⟨_, _, same⟩
    · cases selected
    · cases same
    · cases same
      exact ⟨defined, member, declared, rfl⟩
    · cases same
  · rintro ⟨operation, member, declared, rfl⟩
    refine ⟨.operation operation, member, List.mem_cons_of_mem _ (List.mem_append_left _ ?_)⟩
    exact List.mem_map.mpr ⟨definition, declared, rfl⟩

end Document

/-! ## What a walk finds -/

/-- Notes what `found?` says of each visit. -/
def Visitor.noting {α : Type} (found? : Visit → Option α) : Visitor (List α) Empty :=
  fun node above => modify (· ++ (found? (node, above)).toList)

theorem run_forM_noting {α : Type} (found? : Visit → Option α) (visits : List Visit)
    (found : List α) :
    (forM visits fun (node, above) => Visitor.noting found? node above).run.run found =
      (.ok (), found ++ visits.filterMap found?) := by
  induction visits generalizing found with
  | nil => rw [List.filterMap_nil, List.append_nil]; rfl
  | cons visit visits ih =>
      calc (forM (visit :: visits) fun (node, above) =>
              Visitor.noting found? node above).run.run found
        _ = (forM visits fun (node, above) => Visitor.noting found? node above).run.run
              (found ++ (found? visit).toList) := rfl
        _ = (.ok (), found ++ (found? visit).toList ++ visits.filterMap found?) := ih _
        _ = (.ok (), found ++ (visit :: visits).filterMap found?) := by
            cases noted : found? visit <;> simp [noted]

/-- A walk that notes something finds it in the list of visits. -/
theorem Document.run_walk_noting {α : Type} (found? : Visit → Option α) (document : Document) :
    (document.walk (.noting found?)).run.run [] = (.ok (), document.visits.filterMap found?) := by
  rw [walk_eq_forM_visits, run_forM_noting, List.nil_append]

/-! ## Usages -/

/-- The usage of a fragment that a visit finds, if it finds one. -/
def Visit.usage? (name : String) : Visit → Option Usage
  | (.spread spread, above) => if spread.name = name then some ⟨spread, above⟩ else none
  | _ => none

namespace Document

theorem noteUsage_eq_noting (name : String) : noteUsage name = .noting (Visit.usage? name) := by
  funext node above found
  cases node with
  | spread spread =>
      by_cases named : spread.name = name
      · simp only [noteUsage, Visitor.noting, Visit.usage?, if_pos named, Option.toList_some]
      · simp only [noteUsage, Visitor.noting, Visit.usage?, if_neg named, Option.toList_none,
          List.append_nil]
        rfl
  | _ =>
      simp only [noteUsage, Visitor.noting, Visit.usage?, Option.toList_none, List.append_nil]
      rfl

/-- The usages of a fragment are the spreads of its name among the visits. -/
theorem usagesOf_eq_filterMap (document : Document) (name : String) :
    document.usagesOf name = document.visits.filterMap (Visit.usage? name) := by
  rw [usagesOf, noteUsage_eq_noting, run_walk_noting]

end Document

namespace UsageIndex

/-- What an index knows is true of the document. -/
structure Consistent (document : Document) (index : UsageIndex) : Prop where
  document_eq : index.document = document
  known_eq : ∀ name usages, index.known.get? name = some usages →
    usages = document.usagesOf name

theorem consistent_ofDocument (document : Document) : Consistent document (ofDocument document) :=
  ⟨rfl, fun _ _ known => by simp [ofDocument] at known⟩

/-- An index gives the usages in the document, whatever it was asked for before. -/
theorem Consistent.usagesOf_eq {document : Document} {index : UsageIndex}
    (consistent : Consistent document index) (name : String) :
    (index.usagesOf name).1 = document.usagesOf name := by
  simp only [usagesOf]
  split
  · next usages known => exact consistent.known_eq name usages known
  · rw [consistent.document_eq]

theorem Consistent.usagesOf {document : Document} {index : UsageIndex}
    (consistent : Consistent document index) (name : String) :
    Consistent document (index.usagesOf name).2 := by
  simp only [UsageIndex.usagesOf]
  split
  · exact consistent
  · refine ⟨consistent.document_eq, ?_⟩
    intro other usages known
    rw [Fields.get?_insert] at known
    split at known
    · next same =>
        rw [Option.some.injEq, consistent.document_eq, same] at known
        exact known.symm
    · exact consistent.known_eq other usages known

end UsageIndex

end PreviewLint
