import PreviewLint.Proofs.Resemblance

/-!
# The variables that matter

A validation reads the variable `preview`, and the variables that stand bare as the first
`preview` argument of some field. This file proves that no other variable has any influence:
two sets of variables that agree on these give the same answer, the texts and the places of a
violation included. A variable that is not given agrees with one that is null.

A variable inside a list or an object does not matter even in a `preview` argument, because
such an argument is refused whatever is inside.
-/

namespace PreviewLint

/-- The variable that stands bare as the first `preview` argument of a field. -/
def Field.previewVariable? (field : Field) : Option String :=
  match field.arguments.find? (·.1 == previewName) with
  | some (_, .variable name) => some name
  | _ => none

namespace Document

/-- The names of the variables that matter. -/
def relevantVariables (document : Document) : List String :=
  previewName :: document.fields.filterMap Field.previewVariable?

end Document

namespace Variables

/-- Some variables have the same values, where a variable that is not given is null. -/
def AgreeOn (names : List String) (first second : Variables) : Prop :=
  ∀ name ∈ names, first.valueOf name = second.valueOf name

theorem isTruthy_eq (given : Variables) (name : String) :
    given.isTruthy name = (given.valueOf name).isTruthy := by
  rw [isTruthy, valueOf]
  cases given.get? name <;> rfl

theorem previewing_eq {first second : Variables}
    (preview : first.valueOf previewName = second.valueOf previewName) :
    first.previewing = second.previewing := by
  rw [previewing, previewing, isTruthy_eq, isTruthy_eq, preview]

theorem valueOf_insert (given : Variables) {name other : String} (value : Json)
    (differs : name ≠ other) : valueOf (given.insert name value) other = given.valueOf other := by
  rw [valueOf, valueOf, Fields.get?_insert, if_neg differs]

end Variables

/-- Lists and objects can be told from null and booleans before the variables are known. -/
theorem Value.resolve_eq_or_not_isSwitch (value : Value) (first second : Variables)
    (bare : ∀ name, value = .variable name → first.valueOf name = second.valueOf name) :
    value.resolve first = value.resolve second ∨
      ((value.resolve first).isSwitch = false ∧ (value.resolve second).isSwitch = false) := by
  cases value with
  | list items => exact Or.inr ⟨rfl, rfl⟩
  | object fields => exact Or.inr ⟨rfl, rfl⟩
  | null | number | string | boolean | enum | binary => exact Or.inl rfl
  | _ => exact Or.inl (bare _ rfl)

namespace Field

variable {field : Field} {first second : Variables}

/-- The `preview` arguments stand for one value, or for values that are refused alike. -/
theorem argumentViolation?_eq (preview : first.valueOf previewName = second.valueOf previewName)
    {value : Value}
    (bare : ∀ name, value = .variable name → first.valueOf name = second.valueOf name) :
    Document.argumentViolation? first field (value.resolve first) =
      Document.argumentViolation? second field (value.resolve second) := by
  have refused : ∀ (given : Variables) {json : Json}, json.isSwitch = false →
      Document.argumentViolation? given field json =
        some (.argumentType field.name field.position) := by
    intro given json other
    cases json with
    | null | bool => cases other
    | number | string | array | object => rfl
  rcases value.resolve_eq_or_not_isSwitch first second bare with same | ⟨one, other⟩
  · rw [same]
    cases value.resolve second with
    | null | bool => simp only [Document.argumentViolation?, Document.mismatch,
        Variables.previewing_eq preview, preview]
    | number | string | array | object => rfl
  · rw [refused first one, refused second other]

end Field

namespace Document

variable {document : Document} {first second : Variables}

theorem fieldViolation?_eq {field : Field} (root : Option Container)
    (preview : first.valueOf previewName = second.valueOf previewName)
    (bare : ∀ name, field.previewVariable? = some name →
      first.valueOf name = second.valueOf name) :
    document.fieldViolation? first field root = document.fieldViolation? second field root := by
  rw [fieldViolation?, fieldViolation?]
  cases found : field.arguments.find? (·.1 == previewName) with
  | none => rw [Variables.previewing_eq preview]
  | some argument =>
      obtain ⟨_, value⟩ := argument
      apply Field.argumentViolation?_eq preview
      rintro name rfl
      exact bare name (by rw [Field.previewVariable?, found])

theorem mem_fields_of_mem_subjects {field : Field} {root : Option Container}
    (member : .field field root ∈ document.subjects) : field ∈ document.fields := by
  rcases mem_subjects.mp member with ⟨⟨node, above⟩, visited, subject⟩
  cases node with
  | field head =>
      cases subject
      exact mem_fields.mpr ⟨above, visited⟩
  | operation | fragment | inline | spread => cases subject
  | _ => cases subject

theorem violations_eq_of_agreeOn
    (agree : Variables.AgreeOn document.relevantVariables first second) :
    document.violations first = document.violations second := by
  have preview := agree previewName List.mem_cons_self
  apply List.filterMap_congr
  intro subject member
  cases subject with
  | operation operation => rfl
  | field field root =>
      apply fieldViolation?_eq root preview
      intro name stands
      apply agree name (List.mem_cons_of_mem _ _)
      exact List.mem_filterMap.mpr ⟨field, mem_fields_of_mem_subjects member, stands⟩
  | _ => rfl

/--
Variables that agree where it matters give the same answer, so giving a value to any other
variable changes nothing.
-/
theorem validate_eq_of_agreeOn (document : Document) :
    (∀ first second, Variables.AgreeOn document.relevantVariables first second →
        document.validate first = document.validate second) ∧
      ∀ (given : Variables) (name : String) (value : Json),
        name ∉ document.relevantVariables →
          document.validate (given.insert name value) = document.validate given := by
  have main : ∀ first second, Variables.AgreeOn document.relevantVariables first second →
      document.validate first = document.validate second :=
    fun _ _ agree => validate_congr rfl (violations_eq_of_agreeOn agree)
  refine ⟨main, ?_⟩
  intro given name value irrelevant
  apply main
  intro other relevant
  apply given.valueOf_insert value
  rintro rfl
  exact irrelevant relevant

/--
The document `{ posts(first: $count, preview: $draft) tags(preview: [$tag]) }`, in which
neither `count` nor `tag` matters.
-/
def boundVariables : Document :=
  ⟨[.operation ⟨⟨⟨1, 1⟩, .query, [], [],
      [.field ⟨⟨1, 3⟩, none, "posts",
          [("first", .variable "count"), ("preview", .variable "draft")], []⟩ [],
        .field ⟨⟨1, 41⟩, none, "tags", [("preview", .list [.variable "tag"])], []⟩ []]⟩, none⟩]⟩

/-- Other values of `count` and `tag`, and null in the place of a missing `draft`. -/
theorem boundVariables_validate_eq :
    boundVariables.validate (.ofList [("count", .bool true)]) =
        boundVariables.validate (.ofList [("draft", .null), ("tag", .bool false)]) ∧
      "tag" ∉ boundVariables.relevantVariables ∧
      boundVariables.validate ((Fields.ofList [("preview", .bool true)]).insert "tag" (.bool true)) =
        boundVariables.validate (.ofList [("preview", .bool true)]) := by
  have irrelevant : "tag" ∉ boundVariables.relevantVariables := by decide
  refine ⟨(validate_eq_of_agreeOn boundVariables).1 _ _ ?_, irrelevant,
    (validate_eq_of_agreeOn boundVariables).2 _ "tag" _ irrelevant⟩
  have names : boundVariables.relevantVariables = ["preview", "draft"] := by rfl
  rw [Variables.AgreeOn, names]
  simp [Variables.valueOf, Fields.ofList, Fields.get?_insertAll, List.lookup_cons]

end Document

end PreviewLint
