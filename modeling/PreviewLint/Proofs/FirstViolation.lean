import PreviewLint.Preview.Check
import PreviewLint.Proofs.Memory
import PreviewLint.Proofs.Roots

/-!
# The first violation

A validation shares one stack of ancestors, one index of usages and one memory of searches
between all the nodes of a document. This file lists the nodes that are checked from the
top, each with the definition at whose root it stands, and gives every one of them a
check that knows nothing of the others and searches without memory. A validation reports the
first violation in the list of all violations that these checks find.
-/

namespace PreviewLint

/-- What is checked: an operation, a variable, or a field at the root of a definition or nested. -/
inductive Subject where
  | operation (operation : Operation)
  | variable (definition : VariableDefinition)
  | field (field : Field) (root : Option Container)

mutual

/-- The fields of a selection, which stands at the root of `root` or is nested. -/
def Selection.subjects (root : Option Container) : Selection → List Subject
  | .field head selections => .field head root :: Selection.subjectsAll none selections
  | .inline _ selections => Selection.subjectsAll root selections
  | .spread _ => []

def Selection.subjectsAll (root : Option Container) : List Selection → List Subject
  | [] => []
  | selection :: selections =>
    Selection.subjects root selection ++ Selection.subjectsAll root selections

end

def Definition.subjects : Definition → List Subject
  | .operation defined =>
    .operation defined :: (defined.variableDefinitions.map .variable) ++
      Selection.subjectsAll (some (.operation defined)) defined.selections
  | .fragment defined => Selection.subjectsAll (some (.fragment defined)) defined.selections
  | .typeSystem _ => []

namespace Document

/-- What is checked in a document, in text order. -/
def subjects (document : Document) : List Subject :=
  document.definitions.flatMap Definition.subjects

/-- Whether the root of a definition is a root of the operation, by a search of its own. -/
def reachesRoot (document : Document) : Option Container → Except Violation Bool
  | none => .ok false
  | some (.operation _) => .ok true
  | some (.fragment fragment) => (document.search fragment.name).mapError .fragmentCycle

/-- The violation of a field whose `preview` argument does not agree with the variable. -/
def mismatch (given : Variables) (field : Field) : Violation :=
  .previewMismatch field.name (given.valueOf previewName).text field.position

/--
The violation of a field with a `preview` argument that stands for this value. Null and booleans
are to agree with the variable, and nothing else can.
-/
def argumentViolation? (given : Variables) (field : Field) : Json → Option Violation
  | .null => if given.previewing then some (mismatch given field) else none
  | .bool flag => if flag = given.previewing then none else some (mismatch given field)
  | .number _ | .string _ | .array _ | .object _ =>
    some (.argumentType field.name field.position)

/--
The violation of a field, if there is one. A field with a `preview` argument is judged by the
first of them, and a field without any by where it stands.
-/
def fieldViolation? (document : Document) (given : Variables) (field : Field)
    (root : Option Container) : Option Violation :=
  match field.arguments.find? (·.1 == previewName) with
  | some argument => argumentViolation? given field (argument.2.resolve given)
  | none =>
    if given.previewing then
      match document.reachesRoot root with
      | .error violation => some violation
      | .ok true => some (.rootPreviewMissing field.name field.position)
      | .ok false => none
    else none

/-- The violation at one place of a document, whatever the rest of the document is like. -/
def violationAt? (document : Document) (given : Variables) : Subject → Option Violation
  | .operation operation =>
    if operation.kind = .query then none else some (.operationType operation.position)
  | .variable definition =>
    if definition.name = previewName ∧ definition.type.isBoolean = false then
      some (.variableType definition.position)
    else none
  | .field field root => document.fieldViolation? given field root

/-- All violations of a document, in text order. -/
def violations (document : Document) (given : Variables) : List Violation :=
  document.subjects.filterMap (document.violationAt? given)

end Document

/-! ## Visits as subjects -/

/-- What is checked at a visit. -/
def Visit.subject? : Visit → Option Subject
  | (.operation operation, _) => some (.operation operation)
  | (.variable definition, _) => some (.variable definition)
  | (.field head, above) => some (.field head (Placement.ofAncestors above).container?)
  | (.fragment _, _) | (.inline _, _) | (.spread _, _) => none

mutual

theorem Selection.filterMap_subject_visits (above : List Ancestor) (selection : Selection) :
    (selection.visits above).filterMap Visit.subject? =
      selection.subjects (Placement.ofAncestors above).container? := by
  cases selection with
  | field head selections =>
      have below := Selection.filterMap_subject_visitsAll
        (.selectionSet selections :: .field head :: above) selections
      simp only [Placement.ofAncestors, Placement.container?] at below
      simp only [Selection.visits, List.filterMap_cons, Visit.subject?, Selection.subjects, below]
  | inline head selections =>
      have below := Selection.filterMap_subject_visitsAll
        (.selectionSet selections :: .inline head :: above) selections
      simp only [Placement.ofAncestors] at below
      rw [Selection.visits, List.filterMap_cons_none rfl, below, Selection.subjects]
  | spread head => rfl

theorem Selection.filterMap_subject_visitsAll (above : List Ancestor)
    (selections : List Selection) :
    (Selection.visitsAll above selections).filterMap Visit.subject? =
      Selection.subjectsAll (Placement.ofAncestors above).container? selections := by
  cases selections with
  | nil => rfl
  | cons selection selections =>
      simp only [Selection.visitsAll, Selection.subjectsAll, List.filterMap_append]
      rw [Selection.filterMap_subject_visits, Selection.filterMap_subject_visitsAll]

end

theorem Definition.filterMap_subject_visits (definition : Definition) :
    definition.visits.filterMap Visit.subject? = definition.subjects := by
  cases definition with
  | operation defined =>
      have selections := Selection.filterMap_subject_visitsAll
        [.selectionSet defined.selections, .operation defined, .document] defined.selections
      simp only [Placement.ofAncestors, Placement.container?] at selections
      have declared : (defined.variableDefinitions.map fun definition =>
            (Node.variable definition, [Ancestor.operation defined, .document])).filterMap
              Visit.subject? = defined.variableDefinitions.map Subject.variable := by
        rw [List.filterMap_map, ← List.filterMap_eq_map]
        rfl
      simp only [Definition.visits, List.cons_append, List.filterMap_cons, Visit.subject?,
        List.filterMap_append, declared, Selection.visitsSet, selections, Definition.subjects]
  | fragment defined =>
      have selections := Selection.filterMap_subject_visitsAll
        [.selectionSet defined.selections, .fragment defined, .document] defined.selections
      simp only [Placement.ofAncestors, Placement.container?] at selections
      rw [Definition.visits, List.filterMap_cons_none rfl, Selection.visitsSet, selections,
        Definition.subjects]
  | typeSystem defined => rfl

theorem Document.filterMap_subject_visits (document : Document) :
    document.visits.filterMap Visit.subject? = document.subjects := by
  rw [Document.visits, List.filterMap_flatMap, Document.subjects]
  simp only [Definition.filterMap_subject_visits]

theorem Document.mem_subjects {document : Document} {subject : Subject} :
    subject ∈ document.subjects ↔ ∃ visit ∈ document.visits, visit.subject? = some subject := by
  rw [← filterMap_subject_visits, List.mem_filterMap]

/-! ## Checks as violations -/

/-- The outcome of a check that finds this violation, or none. -/
def Violation.outcome : Option Violation → Except Violation Unit
  | some violation => .error violation
  | none => .ok ()

/-- Checks that are made one after the other end at the first violation. -/
theorem forM_outcome_eq_head? {Item : Type} (violation? : Item → Option Violation)
    (items : List Item) :
    (forM items fun item => Violation.outcome (violation? item)) =
      Violation.outcome (items.filterMap violation?).head? := by
  induction items with
  | nil => rfl
  | cons item items ih =>
      rw [List.forM_cons, ih]
      cases found : violation? item with
      | none =>
          rw [List.filterMap_cons_none found]
          rfl
      | some violation =>
          rw [List.filterMap_cons_some found]
          rfl

theorem Field.checkArgument_eq_outcome (field : Field) (given : Variables) :
    field.checkArgument given = Violation.outcome
      ((field.previewArgument? given).bind (Document.argumentViolation? given field)) := by
  rw [checkArgument]
  cases field.previewArgument? given with
  | none => rfl
  | some argument =>
      cases argument with
      | null => cases truthy : given.previewing <;>
          simp [Json.isSwitch, Json.isTruthy, Document.argumentViolation?, truthy,
            Violation.outcome, Document.mismatch]
      | bool flag => cases flag <;> cases truthy : given.previewing <;>
          simp [Json.isSwitch, Json.isTruthy, Document.argumentViolation?, truthy,
            Violation.outcome, Document.mismatch]
      | number | string | array | object => rfl

/-- An argument that agrees with the variable is truthy while previewing. -/
theorem Field.lacksPreview_eq_false {field : Field} {given : Variables} {argument : Json}
    (found : field.previewArgument? given = some argument)
    (agrees : Document.argumentViolation? given field argument = none) :
    field.lacksPreview given = false := by
  rw [lacksPreview, found]
  cases argument with
  | null =>
      cases truthy : given.previewing
      · rfl
      · simp [Document.argumentViolation?, truthy] at agrees
  | bool flag => cases flag <;> cases truthy : given.previewing <;>
      simp_all [Document.argumentViolation?, Json.isTruthy]
  | number | string | array | object => cases agrees

/-! ## Checks that share a memory -/

namespace Check

open Reachability

variable {ε α β : Type} {document : Document}

theorem agrees_ofExcept (result : Except Violation Unit) :
    Agrees document (ofExcept result) result :=
  fun memory consistent => ⟨memory, rfl, consistent⟩

theorem agrees_pure (value : α) :
    Agrees document (pure value : ExceptT ε (StateM Reachability) α) (pure value) :=
  fun memory consistent => ⟨memory, rfl, consistent⟩

theorem agrees_throw (cause : ε) :
    Agrees document (throw cause : ExceptT ε (StateM Reachability) α) (throw cause) :=
  fun memory consistent => ⟨memory, rfl, consistent⟩

theorem agrees_bind {action : ExceptT ε (StateM Reachability) α} {expected : Except ε α}
    {next : α → ExceptT ε (StateM Reachability) β} {expectedNext : α → Except ε β}
    (first : Agrees document action expected)
    (rest : ∀ value, Agrees document (next value) (expectedNext value)) :
    Agrees document (action >>= next) (expected >>= expectedNext) := by
  intro memory consistent
  rcases first memory consistent with ⟨middle, runs, consistent⟩
  rw [exec_bind, runs]
  cases expected with
  | error cause => exact ⟨middle, rfl, consistent⟩
  | ok value => exact rest value middle consistent

theorem agrees_forM {Item : Type} {visit : Item → ExceptT ε (StateM Reachability) Unit}
    {plain : Item → Except ε Unit} (each : ∀ item, Agrees document (visit item) (plain item))
    (items : List Item) : Agrees document (forM items visit) (forM items plain) := by
  induction items with
  | nil => exact agrees_pure ()
  | cons item items ih =>
      rw [List.forM_cons, List.forM_cons]
      exact agrees_bind (each item) fun _ => ih

theorem agrees_standsAtRoot (above : List Ancestor) :
    Agrees document (standsAtRoot above)
      (document.reachesRoot (Placement.ofAncestors above).container?) := by
  rw [standsAtRoot]
  cases Placement.ofAncestors above with
  | nested => exact agrees_pure false
  | root container =>
      cases container with
      | operation operation => exact agrees_pure true
      | fragment fragment =>
          intro memory consistent
          rcases agrees_isUsedAtRoot document fragment.name memory consistent with
            ⟨after, runs, consistent⟩
          refine ⟨after, ?_, consistent⟩
          have mapped : exec (ofSearch (isUsedAtRoot fragment.name)) memory =
              ((exec (isUsedAtRoot fragment.name) memory).1.mapError .fragmentCycle,
                (exec (isUsedAtRoot fragment.name) memory).2) := rfl
          rw [mapped, runs]
          rfl

/-- A field that has no `preview` argument and needs one. -/
theorem agrees_missing (head : Field) (above : List Ancestor) :
    Agrees document
      (do if ← standsAtRoot above then throw (.rootPreviewMissing head.name head.position))
      (do if ← document.reachesRoot (Placement.ofAncestors above).container? then
            throw (.rootPreviewMissing head.name head.position)) := by
  apply agrees_bind (agrees_standsAtRoot above)
  intro atRoot
  cases atRoot with
  | true => exact agrees_throw _
  | false => exact agrees_pure ()

theorem agrees_field (given : Variables) (head : Field) (above : List Ancestor) :
    Agrees document (field given head above) (Violation.outcome
      (document.fieldViolation? given head (Placement.ofAncestors above).container?)) := by
  have checked := head.checkArgument_eq_outcome given
  rw [field, Document.fieldViolation?]
  cases found : head.arguments.find? (·.1 == previewName) with
  | some argument =>
      have resolved : head.previewArgument? given = some (argument.2.resolve given) := by
        rw [Field.previewArgument?, found, Option.map_some]
      rw [resolved, Option.bind_some] at checked
      intro memory consistent
      refine ⟨memory, ?_, consistent⟩
      dsimp only
      rw [checked]
      cases violated : Document.argumentViolation? given head (argument.2.resolve given) with
      | some violation => rfl
      | none =>
          rw [Field.lacksPreview_eq_false resolved violated]
          rfl
  | none =>
      have resolved : head.previewArgument? given = none := by
        rw [Field.previewArgument?, found, Option.map_none]
      have lacks : head.lacksPreview given = given.previewing := by
        rw [Field.lacksPreview, resolved, Option.any_none, Bool.not_false, Bool.and_true]
      rw [resolved, Option.bind_none] at checked
      rw [checked, lacks]
      cases given.previewing with
      | false => exact fun memory consistent => ⟨memory, rfl, consistent⟩
      | true =>
          intro memory consistent
          rcases agrees_missing head above memory consistent with ⟨after, runs, consistent⟩
          refine ⟨after, ?_, consistent⟩
          refine Eq.trans runs (congrArg (·, after) ?_)
          cases document.reachesRoot (Placement.ofAncestors above).container? with
          | error violation => rfl
          | ok atRoot => cases atRoot <;> rfl

/-- The check of a node finds the violation of its subject. -/
theorem agrees_node (document : Document) (given : Variables) (visit : Visit) :
    Agrees document (node given visit.1 visit.2)
      (Violation.outcome (visit.subject?.bind (document.violationAt? given))) := by
  obtain ⟨visited, above⟩ := visit
  cases visited with
  | operation operation =>
      have checked : operation.check =
          Violation.outcome (document.violationAt? given (.operation operation)) := by
        rw [Operation.check, Document.violationAt?]
        split <;> rfl
      rw [Visit.subject?, Option.bind_some, ← checked]
      exact agrees_ofExcept operation.check
  | field head => exact agrees_field given head above
  | fragment | inline | spread => exact agrees_pure ()
  | _ definition =>
      have checked : definition.check =
          Violation.outcome (document.violationAt? given (.variable definition)) := by
        simp only [VariableDefinition.check, Document.violationAt?, Bool.and_eq_true,
          decide_eq_true_eq, Bool.not_eq_true']
        split <;> rfl
      rw [Visit.subject?, Option.bind_some, ← checked]
      exact agrees_ofExcept definition.check

end Check

namespace Document

theorem validate_eq_outcome (document : Document) (given : Variables) :
    document.validate given =
      if document.operations.length = 1 then Violation.outcome (document.violations given).head?
      else .error .operationCount := by
  have checks := Check.agrees_forM (Check.agrees_node document given) document.visits
  rw [forM_outcome_eq_head?, ← List.filterMap_filterMap, filterMap_subject_visits] at checks
  rcases checks (.ofDocument document) (Reachability.consistent_after document []) with
    ⟨after, runs, _⟩
  rw [validate, walk_eq_forM_visits, ite_not]
  split
  · exact congrArg Prod.fst runs
  · rfl

/-- A validation answers with the first of all violations. -/
theorem validate_eq_first_violation (document : Document) (given : Variables) :
    document.validate given =
      if document.operations.length = 1 then
        match (document.violations given).head? with
        | some violation => .error violation
        | none => .ok ()
      else .error .operationCount := by
  rw [validate_eq_outcome]
  cases (document.violations given).head? <;> rfl

end Document

end PreviewLint
