import PreviewLint.Proofs.Exactness
import PreviewLint.Proofs.FirstViolation

/-!
# Which documents are accepted

A validation walks through a document and stops at the first violation. This file says
which documents it accepts without mentioning a walk or a search: `Document.Acceptable`
speaks of all fields of a document at once, and of the graph of fragments.

A field without a `preview` argument at the root of a fragment is harmless only if the
fragment is not used at the root of the operation. A cycle above the fragment is no
harmless answer either, since the search for an operation gives up there.
-/

namespace PreviewLint

namespace Variables

/-- A value that a `preview` argument may have: null or a boolean, as truthy as the variable. -/
def Admits (given : Variables) (value : Json) : Prop :=
  (value = .null ∨ ∃ flag, value = .bool flag) ∧ value.isTruthy = given.previewing

end Variables

namespace Field

/-- A field has an argument with the name `preview`. -/
def HasPreview (field : Field) : Prop := ∃ argument ∈ field.arguments, argument.1 = previewName

end Field

namespace Document

/-- Nothing above a fragment is an operation, and no fragment above it lies on a cycle. -/
def AwayFromRoot (document : Document) (name : String) : Prop :=
  ¬document.RootReachable name ∧ ∀ other, document.Above name other → ¬document.OnCycle other

/-- The rules of the `preview` argument, for a document as a whole. -/
structure Acceptable (document : Document) (given : Variables) : Prop where
  operation : ∃ operation, document.operations = [operation] ∧ operation.kind = .query ∧
    ∀ definition ∈ operation.variableDefinitions, definition.name = previewName →
      ∃ nonNull, definition.type = .named "Boolean" nonNull
  arguments : ∀ field ∈ document.fields, ∀ argument,
    field.arguments.find? (·.1 == previewName) = some argument →
      given.Admits (argument.2.resolve given)
  roots : given.previewing → ∀ container ∈ document.containers, ∀ field : Field,
    .field field ∈ Selection.rootsAll container.selections → ¬field.HasPreview →
      ∃ fragment, container = .fragment fragment ∧ document.AwayFromRoot fragment.name

end Document

/-! ## Subjects without a violation -/

theorem TypeReference.isBoolean_iff (type : TypeReference) :
    type.isBoolean ↔ ∃ nonNull, type = .named "Boolean" nonNull := by
  cases type <;> simp [TypeReference.isBoolean]

namespace Document

variable {document : Document} {given : Variables}

theorem violationAt?_operation_eq_none_iff {operation : Operation} :
    document.violationAt? given (.operation operation) = none ↔ operation.kind = .query := by
  rw [violationAt?]
  split <;> simp_all

theorem violationAt?_variable_eq_none_iff {definition : VariableDefinition} :
    document.violationAt? given (.variable definition) = none ↔
      (definition.name = previewName → ∃ nonNull, definition.type = .named "Boolean" nonNull) := by
  rw [← TypeReference.isBoolean_iff, violationAt?]
  split <;> simp_all

theorem argumentViolation?_eq_none_iff {field : Field} {value : Json} :
    argumentViolation? given field value = none ↔ given.Admits value := by
  cases value with
  | null => cases truthy : given.previewing <;>
      simp [argumentViolation?, Variables.Admits, Json.isTruthy, truthy]
  | bool flag => simp [argumentViolation?, Variables.Admits, Json.isTruthy]
  | number | string | array | object => simp [argumentViolation?, Variables.Admits]

theorem reachesRoot_eq_ok_false_iff {root : Option Container} :
    document.reachesRoot root = .ok false ↔ ∀ container, root = some container →
      ∃ fragment, container = .fragment fragment ∧ document.AwayFromRoot fragment.name := by
  cases root with
  | none => simp [reachesRoot]
  | some container =>
      cases container with
      | operation operation => simp [reachesRoot]
      | fragment fragment =>
          simp only [reachesRoot, Option.some.injEq, forall_eq', Container.fragment.injEq,
            exists_eq_left', AwayFromRoot, ← search_eq_ok_false_iff]
          cases document.search fragment.name <;> simp [Except.mapError]

theorem outcome_head?_eq_ok_iff {violations : List Violation} :
    Violation.outcome violations.head? = .ok () ↔ violations = [] := by
  cases violations <;> simp [Violation.outcome]

/-- A field is harmless by its first `preview` argument, or by where it stands. -/
theorem fieldViolation?_eq_none_iff {field : Field} {root : Option Container} :
    document.fieldViolation? given field root = none ↔
      (∀ argument, field.arguments.find? (·.1 == previewName) = some argument →
        given.Admits (argument.2.resolve given)) ∧
      (given.previewing → ¬field.HasPreview → ∀ container, root = some container →
        ∃ fragment, container = .fragment fragment ∧ document.AwayFromRoot fragment.name) := by
  rw [fieldViolation?]
  cases found : field.arguments.find? (·.1 == previewName) with
  | some argument =>
      have has : field.HasPreview :=
        ⟨argument, List.mem_of_find?_eq_some found, by simpa using List.find?_some found⟩
      simp [argumentViolation?_eq_none_iff, has]
  | none =>
      have lacks : ¬field.HasPreview := by
        rintro ⟨argument, member, named⟩
        have differs := List.find?_eq_none.mp found argument member
        simp [named] at differs
      rw [← reachesRoot_eq_ok_false_iff]
      cases given.previewing with
      | false => simp
      | true =>
          cases document.reachesRoot root with
          | error violation => simp [lacks]
          | ok atRoot => cases atRoot <;> simp [lacks]

/-! ## All subjects -/

theorem violations_eq_nil_iff :
    document.violations given = [] ↔
      ∀ visit ∈ document.visits, ∀ subject, visit.subject? = some subject →
        document.violationAt? given subject = none := by
  rw [violations, List.filterMap_eq_nil_iff]
  constructor
  · intro clear visit visited subject found
    exact clear subject (mem_subjects.mpr ⟨visit, visited, found⟩)
  · intro clear subject member
    rcases mem_subjects.mp member with ⟨visit, visited, found⟩
    exact clear visit visited subject found

/-- Operations and variables are judged by themselves, and fields by their places too. -/
theorem violations_eq_nil_iff_forall :
    document.violations given = [] ↔
      (∀ operation ∈ document.operations,
        document.violationAt? given (.operation operation) = none ∧
          ∀ definition ∈ operation.variableDefinitions,
            document.violationAt? given (.variable definition) = none) ∧
      ∀ field above, (.field field, above) ∈ document.visits →
        document.fieldViolation? given field (Placement.ofAncestors above).container? = none := by
  rw [violations_eq_nil_iff]
  constructor
  · intro clear
    refine ⟨fun operation member => ⟨?_, fun definition declared => ?_⟩,
      fun field above visited => clear _ visited _ rfl⟩
    · exact clear _ (operation_mem_visits.mpr ⟨member, rfl⟩) _ rfl
    · exact clear _ (variable_mem_visits.mpr ⟨operation, member, declared, rfl⟩) _ rfl
  · rintro ⟨operations, fields⟩ ⟨node, above⟩ visited subject found
    cases node with
    | operation operation =>
        cases found
        exact (operations operation (operation_mem_visits.mp visited).1).1
    | field field =>
        cases found
        exact fields field above visited
    | fragment | inline | spread => cases found
    | _ definition =>
        cases found
        rcases variable_mem_visits.mp visited with ⟨operation, member, declared, _⟩
        exact (operations operation member).2 definition declared

theorem forall_fieldViolation?_iff :
    (∀ field above, (.field field, above) ∈ document.visits →
        document.fieldViolation? given field (Placement.ofAncestors above).container? = none) ↔
      (∀ field ∈ document.fields, ∀ argument,
        field.arguments.find? (·.1 == previewName) = some argument →
          given.Admits (argument.2.resolve given)) ∧
      (given.previewing → ∀ container ∈ document.containers, ∀ field : Field,
        .field field ∈ Selection.rootsAll container.selections → ¬field.HasPreview →
          ∃ fragment, container = .fragment fragment ∧ document.AwayFromRoot fragment.name) := by
  simp only [fieldViolation?_eq_none_iff, Placement.container?_eq_some_iff]
  constructor
  · intro passes
    constructor
    · intro field member
      rcases mem_fields.mp member with ⟨above, visited⟩
      exact (passes field above visited).1
    · intro previewing container defined field root lacking
      rcases field_mem_roots.mp (mem_roots.mpr ⟨defined, root⟩) with ⟨above, visited, placed⟩
      exact (passes field above visited).2 previewing lacking container placed
  · rintro ⟨arguments, roots⟩ field above visited
    refine ⟨arguments field (mem_fields.mpr ⟨above, visited⟩), ?_⟩
    intro previewing lacking container placed
    rcases mem_roots.mp (field_mem_roots.mpr ⟨above, visited, placed⟩) with ⟨defined, root⟩
    exact roots previewing container defined field root lacking

/-- A document is accepted exactly if it follows the rules as a whole. -/
theorem validate_eq_ok_iff (document : Document) (given : Variables) :
    document.validate given = .ok () ↔ document.Acceptable given := by
  rw [validate_eq_outcome]
  by_cases single : document.operations.length = 1
  · rcases List.length_eq_one_iff.mp single with ⟨operation, operations⟩
    rw [if_pos single, outcome_head?_eq_ok_iff, violations_eq_nil_iff_forall,
      forall_fieldViolation?_iff, operations]
    simp only [List.mem_singleton, forall_eq, violationAt?_operation_eq_none_iff,
      violationAt?_variable_eq_none_iff]
    constructor
    · rintro ⟨⟨query, variableTypes⟩, arguments, roots⟩
      exact ⟨⟨operation, operations, query, variableTypes⟩, arguments, roots⟩
    · rintro ⟨⟨other, others, query, variableTypes⟩, arguments, roots⟩
      cases operations.symm.trans others
      exact ⟨⟨query, variableTypes⟩, arguments, roots⟩
  · rw [if_neg single]
    constructor
    · intro accepted
      cases accepted
    · intro acceptable
      rcases acceptable.operation with ⟨operation, operations, _⟩
      exact absurd (by rw [operations, List.length_singleton]) single

/-- The documents that are accepted, rule by rule. -/
theorem validate_accepts_iff (document : Document) (given : Variables) :
    document.validate given = .ok () ↔
      (∃ operation, document.operations = [operation] ∧ operation.kind = .query ∧
        ∀ definition ∈ operation.variableDefinitions, definition.name = previewName →
          ∃ nonNull, definition.type = .named "Boolean" nonNull) ∧
      (∀ field ∈ document.fields, ∀ argument,
        field.arguments.find? (·.1 == previewName) = some argument →
          given.Admits (argument.2.resolve given)) ∧
      (given.previewing →
        (∀ operation ∈ document.operations, ∀ field : Field,
          .field field ∈ Selection.rootsAll operation.selections → field.HasPreview) ∧
        ∀ fragment ∈ document.fragments, ∀ field : Field,
          .field field ∈ Selection.rootsAll fragment.selections → ¬field.HasPreview →
            ¬document.RootReachable fragment.name ∧
              ∀ other, document.Above fragment.name other → ¬document.OnCycle other) := by
  rw [validate_eq_ok_iff]
  constructor
  · rintro ⟨operation, arguments, roots⟩
    refine ⟨operation, arguments, fun previewing => ⟨?_, ?_⟩⟩
    · intro operation member field root
      by_contra lacking
      rcases roots previewing (.operation operation) (operation_mem_containers.mpr member) field
        root lacking with ⟨fragment, same, _⟩
      cases same
    · intro fragment member field root lacking
      rcases roots previewing (.fragment fragment) (fragment_mem_containers.mpr member) field
        root lacking with ⟨other, same, away⟩
      cases same
      exact away
  · rintro ⟨operation, arguments, roots⟩
    refine ⟨operation, arguments, ?_⟩
    intro previewing container member field root lacking
    cases container with
    | operation operation =>
        have needed := (roots previewing).1 operation (operation_mem_containers.mp member) field root
        exact absurd needed lacking
    | fragment fragment =>
        exact ⟨fragment, rfl, (roots previewing).2 fragment
          (fragment_mem_containers.mp member) field root lacking⟩

end Document

end PreviewLint
