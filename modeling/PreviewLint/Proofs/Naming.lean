import PreviewLint.Proofs.Fields
import PreviewLint.Proofs.Source.Matches

/-!
# Operations and fragments by their names

A text is read into tables: its operations by their names, or a single operation without one, and
its fragments by their names. This file proves that the tables lose nothing. Names that clash are
refused before, so the definitions of the tables, each under its own name, are the operations and
the fragments of the text.
-/

namespace PreviewLint

open Reader

/-- The definitions of a text of operations and fragments, before they are sorted. -/
def Document.gathered (operations : List Operation) (fragments : List Fragment) :
    List Definition :=
  operations.map .operation ++ fragments.map .fragment

/-! ## Names that do not clash -/

/--
No two operations have the same name, an operation without a name is the only one, and no two
fragments have the same name.
-/
structure DistinctNames (definitions : List Definition) : Prop where
  operations : ((definitions.filterMap Definition.operation?).map Operation.name).Nodup
  alone : ∀ operation ∈ definitions.filterMap Definition.operation?, operation.name = none →
    definitions.filterMap Definition.operation? = [operation]
  fragments : ((definitions.filterMap Definition.fragment?).map Fragment.name).Nodup

namespace DistinctNames

variable {definitions earlier : List Definition}

theorem nil : DistinctNames [] := ⟨List.nodup_nil, by simp, List.nodup_nil⟩

theorem of_perm {others : List Definition} (perm : definitions.Perm others)
    (distinct : DistinctNames others) : DistinctNames definitions := by
  have operations := perm.filterMap Definition.operation?
  refine ⟨(operations.map _).nodup_iff.mpr distinct.operations, ?_,
    ((perm.filterMap _).map _).nodup_iff.mpr distinct.fragments⟩
  intro operation member unnamed
  rw [distinct.alone operation (operations.mem_iff.mp member) unnamed] at operations
  exact List.perm_singleton.mp operations

/-- An operation that passes the check is the first one, or has a name among named ones. -/
theorem of_checkName_operation {operation : Operation} (distinct : DistinctNames earlier)
    (passed : checkName earlier (.operation operation) = .ok ()) :
    DistinctNames (.operation operation :: earlier) := by
  have apart : ∀ other ∈ earlier.filterMap Definition.operation?,
      other.name ≠ none ∧ operation.name ≠ none ∧ other.name ≠ operation.name := by
    intro other member
    rcases List.mem_filterMap.mp member with ⟨found, listed, isOther⟩
    simp only [checkName] at passed
    split at passed
    · cases passed
    · next quiet =>
        have clash := List.any_eq_false.mp (Bool.not_eq_true _ ▸ quiet) found listed
        simpa [isOther, and_assoc] using clash
  refine ⟨List.nodup_cons.mpr ⟨?_, distinct.operations⟩, ?_, distinct.fragments⟩
  · intro repeated
    rcases List.mem_map.mp repeated with ⟨other, member, same⟩
    exact (apart other member).2.2 same
  · intro unnamed member missing
    rcases List.mem_cons.mp member with rfl | member
    · cases others : earlier.filterMap Definition.operation? with
      | nil => exact congrArg (unnamed :: ·) others
      | cons other rest =>
          have first : other ∈ earlier.filterMap Definition.operation? := by
            rw [others]
            exact List.mem_cons_self
          exact absurd missing (apart other first).2.1
    · exact absurd missing (apart unnamed member).1

theorem of_checkName {definition : Definition} (distinct : DistinctNames earlier)
    (passed : checkName earlier definition = .ok ()) :
    DistinctNames (earlier ++ [definition]) := by
  apply of_perm (List.perm_append_singleton _ _)
  cases definition with
  | operation operation => exact distinct.of_checkName_operation passed
  | fragment fragment =>
      have fresh : fragment.name ∉
          (earlier.filterMap Definition.fragment?).map Fragment.name := by
        intro repeated
        rcases List.mem_map.mp repeated with ⟨other, listed, same⟩
        simp only [checkName] at passed
        split at passed
        · cases passed
        · next apart =>
            have differs := List.find?_eq_none.mp apart other listed
            simp [same] at differs
      exact ⟨distinct.operations, distinct.alone, List.nodup_cons.mpr ⟨fresh, distinct.fragments⟩⟩
  | typeSystem defined => exact ⟨distinct.operations, distinct.alone, distinct.fragments⟩

theorem of_checkNames (distinct : DistinctNames earlier)
    (passed : checkNames earlier definitions = .ok ()) :
    DistinctNames (earlier ++ definitions) := by
  induction definitions generalizing earlier with
  | nil => rwa [List.append_nil]
  | cons definition definitions ih =>
      rcases bind_eq_ok passed with ⟨_, here, rest⟩
      have together := ih (distinct.of_checkName here) rest
      rwa [List.append_assoc] at together

end DistinctNames

/-! ## Tables -/

/-- Operations with names are the entries of their table. -/
theorem map_named_eq {operations : List Operation}
    (named : ∀ operation ∈ operations, operation.name ≠ none) :
    ((operations.filterMap fun operation =>
        operation.name.map (·, operation.toOperationDefinition)).map fun (name, definition) =>
          ({ definition with name := some name } : Operation)) = operations := by
  induction operations with
  | nil => rfl
  | cons operation operations ih =>
      have rest := ih fun other member => named other (List.mem_cons_of_mem _ member)
      obtain ⟨definition, name⟩ := operation
      cases name with
      | none => exact absurd rfl (named _ List.mem_cons_self)
      | some name => exact congrArg (⟨definition, some name⟩ :: ·) rest

theorem Operations.toList_ofList {operations : List Operation}
    (distinct : (operations.map Operation.name).Nodup)
    (alone : ∀ operation ∈ operations, operation.name = none → operations = [operation]) :
    (ofList operations).toList = operations := by
  rw [ofList]
  split
  · next operation found =>
      have unnamed : operation.name = none := by simpa using List.find?_some found
      rw [alone operation (List.mem_of_find?_eq_some found) unnamed, toList, ← unnamed]
  · next missing =>
      have named : ∀ operation ∈ operations, operation.name ≠ none := by
        intro operation member
        simpa using List.find?_eq_none.mp missing operation member
      have same := map_named_eq named
      have names := congrArg (List.map Operation.name) same
      rw [List.map_map] at names
      rw [← names] at distinct
      rw [toList, Fields.toList_ofList, same]
      apply List.Nodup.of_map some
      rwa [List.map_map]

/-- The tables of definitions whose names do not clash have the same definitions. -/
theorem Executable.definitions_ofDefinitions {definitions : List Definition}
    (distinct : DistinctNames definitions) :
    (ofDefinitions definitions).definitions =
      Document.gathered (definitions.filterMap Definition.operation?)
        (definitions.filterMap Definition.fragment?) := by
  have fragments := distinct.fragments
  rw [Executable.definitions, ofDefinitions, Document.gathered,
    Operations.toList_ofList distinct.operations distinct.alone, Fields.toList_ofList, List.map_map]
  · rfl
  · rwa [List.map_map]

end PreviewLint
