import PreviewLint.Proofs.Resemblance
import PreviewLint.Proofs.Source.Splitting

/-!
# Type-system definitions are inert

A walk passes over type-system definitions, so they are neither checked nor counted, and no
search meets them. Documents with the same executable definitions, in the same order, are
validated alike, wherever type-system definitions stand between them.

A text that is read by splitting is the main case. Its document sorts the definitions of both
halves together, and the sort is stable, so that the executable half keeps its order: the
document is validated as its executable half is.
-/

namespace PreviewLint

open GraphQL Outline

namespace Document

/-- The executable definitions of a document, in order. -/
def executableDefinitions (document : Document) : List Definition :=
  document.definitions.filter (·.kind = .executable)

section Executable

variable (document : Document)

theorem operations_eq_filterMap :
    document.operations = document.executableDefinitions.filterMap Definition.operation? := by
  rw [operations, executableDefinitions, List.filterMap_filter]
  congr 1
  funext definition
  cases definition <;> rfl

theorem containers_eq_filterMap :
    document.containers = document.executableDefinitions.filterMap Definition.container? := by
  rw [containers, executableDefinitions, List.filterMap_filter]
  congr 1
  funext definition
  cases definition <;> rfl

theorem subjects_eq_flatMap :
    document.subjects = document.executableDefinitions.flatMap Definition.subjects := by
  obtain ⟨definitions⟩ := document
  rw [subjects, executableDefinitions]
  induction definitions with
  | nil => rfl
  | cons definition definitions ih =>
      cases definition with
      | operation defined => exact congrArg ((Definition.operation defined).subjects ++ ·) ih
      | fragment defined => exact congrArg ((Definition.fragment defined).subjects ++ ·) ih
      | typeSystem defined => exact ih

end Executable

/-- Type-system definitions show nothing to a validation. -/
theorem resembles_of_executableDefinitions_eq {first second : Document}
    (same : first.executableDefinitions = second.executableDefinitions) :
    first.Resembles second := by
  have containers : first.containers = second.containers := by
    rw [containers_eq_filterMap, containers_eq_filterMap, same]
  refine ⟨?_, ?_, ?_⟩
  · rw [operations_eq_filterMap, operations_eq_filterMap, same]
  · rw [subjects_eq_flatMap, subjects_eq_flatMap, same]
    exact List.forall₂_same.mpr fun subject _ => .refl subject
  · intro name
    rw [users, users, roots, roots, containers]

/-! ## Sorting two halves together -/

/-- Definitions that are sorted keep their order when others are sorted in. -/
theorem sublist_ofDefinitions {sorted definitions : List Definition}
    (grows : sorted.Pairwise (·.position ≤ ·.position)) (sublist : sorted.Sublist definitions) :
    sorted.Sublist (ofDefinitions definitions).definitions :=
  List.sublist_mergeSort ordered_trans ordered_total (grows.imp decide_eq_true) sublist

/-- Sorting in type-system definitions keeps sorted executable definitions as they are. -/
theorem executableDefinitions_ofDefinitions {executable typeSystem : List Definition}
    (grows : executable.Pairwise (·.position ≤ ·.position))
    (executables : ∀ definition ∈ executable, definition.kind = .executable)
    (typeSystems : ∀ definition ∈ typeSystem, definition.kind = .typeSystem) :
    (ofDefinitions (executable ++ typeSystem)).executableDefinitions = executable := by
  have all : executable.filter (·.kind = .executable) = executable :=
    List.filter_eq_self.mpr fun definition member => decide_eq_true (executables definition member)
  have none : typeSystem.filter (·.kind = .executable) = [] :=
    List.filter_eq_nil_iff.mpr fun definition member => by simp [typeSystems definition member]
  have kept : executable.Sublist
      (ofDefinitions (executable ++ typeSystem)).executableDefinitions := by
    have sublist := (sublist_ofDefinitions grows
      (List.sublist_append_left executable typeSystem)).filter (·.kind = .executable)
    rwa [all] at sublist
  -- Nothing else of that kind is there, because sorting permutes the definitions.
  have perm := (perm_ofDefinitions (executable ++ typeSystem)).filter (·.kind = .executable)
  rw [List.filter_append, all, none, List.append_nil] at perm
  exact (kept.eq_of_length perm.length_eq.symm).symm

theorem kind_of_mem_executable {text : List Char} {document : Document}
    (read : Reader.executable text = .ok document) {definition : Definition}
    (member : definition ∈ document.definitions) : definition.kind = .executable := by
  rcases executable_eq_ok read with ⟨found, _, rfl⟩
  have gathered := (perm_ofDefinitions _).mem_iff.mp member
  rcases List.mem_append.mp gathered with operation | fragment
  · rcases List.mem_map.mp operation with ⟨_, _, rfl⟩
    rfl
  · rcases List.mem_map.mp fragment with ⟨_, _, rfl⟩
    rfl

theorem kind_of_mem_typeSystem {text : List Char} {document : Document}
    (read : Reader.typeSystem text = .ok document) {definition : Definition}
    (member : definition ∈ document.definitions) : definition.kind = .typeSystem := by
  rcases typeSystem_eq_ok read with ⟨found, foundHere, rfl⟩
  rcases List.mem_map.mp ((perm_ofDefinitions _).mem_iff.mp member) with ⟨entry, listed, rfl⟩
  exact ((stands_of_located foundHere).2 entry listed).kind_eq

/-- The document of two halves has the executable definitions of the executable half. -/
theorem exists_executable_of_ofHalves {executable typeSystem : List Char} {document : Document}
    (read : ofHalves executable typeSystem = .ok document) :
    ∃ half, Reader.executable executable = .ok half ∧
      document.executableDefinitions = half.definitions := by
  rcases bind_eq_ok read with ⟨half, halfRead, rest⟩
  rcases bind_eq_ok rest with ⟨other, otherRead, same⟩
  cases same
  refine ⟨half, halfRead, executableDefinitions_ofDefinitions ?_
    (fun _ member => kind_of_mem_executable halfRead member)
    (fun _ member => kind_of_mem_typeSystem otherRead member)⟩
  rcases executable_eq_ok halfRead with ⟨_, _, rfl⟩
  exact sorted_ofDefinitions _

theorem executableDefinitions_of_executable {text : List Char} {document : Document}
    (read : Reader.executable text = .ok document) :
    document.executableDefinitions = document.definitions :=
  List.filter_eq_self.mpr fun _ member => decide_eq_true (kind_of_mem_executable read member)

/--
Documents that differ in type-system definitions only are validated alike. The document of a
text that is read by splitting has the executable definitions of the executable half, each once
and in the same order, and is validated as this half on its own.
-/
theorem typeSystem_inert :
    (∀ first second : Document, first.executableDefinitions = second.executableDefinitions →
        ∀ given, first.validate given = second.validate given) ∧
      ∀ (source : String) (document : Document), parse source = .ok document →
        (Reader.executable source.toList).isOk = false →
        (Reader.typeSystem source.toList).isOk = false →
          ∃ half, Reader.executable ((ofText source.toList).half .executable) = .ok half ∧
            document.executableDefinitions = half.definitions ∧
            ∀ given, document.validate given = half.validate given := by
  have main : ∀ first second : Document,
      first.executableDefinitions = second.executableDefinitions →
        ∀ given, first.validate given = second.validate given :=
    fun _ _ same given => (resembles_of_executableDefinitions_eq same).validate_eq given
  refine ⟨main, ?_⟩
  intro source document parsed executable typeSystem
  rcases split_of_parse parsed executable typeSystem with ⟨_, read⟩
  rcases exists_executable_of_ofHalves read with ⟨half, halfRead, same⟩
  refine ⟨half, halfRead, same, main document half ?_⟩
  rw [same, executableDefinitions_of_executable halfRead]

/-- A query and its fragment, with a scalar between them. -/
def interposed : String := "\x7b ...F \x7d scalar S fragment F on T \x7b a \x7d"

/-- The document `{ posts }` with a scalar before the query or after it. -/
def scalarAround (before after : List TypeSystemDefinition) : Document :=
  ⟨before.map .typeSystem ++
    [.operation ⟨⟨⟨2, 1⟩, .query, [], [], [.field ⟨⟨2, 3⟩, none, "posts", [], []⟩ []]⟩, none⟩] ++
    after.map .typeSystem⟩

set_option maxRecDepth 100000 in
/-- Moving a scalar changes nothing, and the text with a scalar is validated as its query. -/
theorem interposed_inert :
    (∀ given, (scalarAround [⟨⟨1, 1⟩, .scalar, some "S", false⟩] []).validate given =
        (scalarAround [] [⟨⟨3, 1⟩, .scalar, some "S", false⟩]).validate given) ∧
      ∃ document half, parse interposed = .ok document ∧
        Reader.executable ((ofText interposed.toList).half .executable) = .ok half ∧
        document.executableDefinitions = half.definitions ∧
        ∀ given, document.validate given = half.validate given := by
  refine ⟨typeSystem_inert.1 _ _ rfl, ?_⟩
  have read : (parse interposed).isOk := by decide +kernel
  cases parsed : parse interposed with
  | error problem =>
      rw [parsed] at read
      cases read
  | ok document =>
      rcases typeSystem_inert.2 interposed document parsed (by decide +kernel) (by decide +kernel)
        with ⟨half, halfRead, same, alike⟩
      exact ⟨document, half, rfl, halfRead, same, alike⟩

end Document

end PreviewLint
