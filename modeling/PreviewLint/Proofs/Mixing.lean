import PreviewLint.Proofs.Acceptance

/-!
# Drafts and published content are not mixed

The operation of a document is expanded by putting the selections of a fragment in the
place of each spread, again and again. `Document.Unmixed` is what an accepted document
should promise: all `preview` arguments agree with the variable, and while previewing
every field at the root of the expansion has one.

A validation reads the first `preview` argument of a field. An accepted document is
therefore unmixed exactly if the repetitions of the argument agree with the variable too;
a document in which they do not is accepted all the same.
-/

namespace PreviewLint

theorem Variables.Admits.eq_true {given : Variables} {value : Json} (admits : given.Admits value)
    (previewing : given.previewing) : value = .bool true := by
  rcases admits with ⟨rfl | ⟨flag, rfl⟩, truthy⟩
  · simp [Json.isTruthy, previewing] at truthy
  · simpa [Json.isTruthy, previewing] using truthy

namespace Field

/-- The `preview` arguments of a field, in order. -/
def previews (field : Field) : Arguments := field.arguments.filter (·.1 == previewName)

variable {field : Field}

theorem mem_previews {argument : String × Value} :
    argument ∈ field.previews ↔ argument ∈ field.arguments ∧ argument.1 = previewName := by
  simp [previews]

theorem head?_previews :
    field.previews.head? = field.arguments.find? (·.1 == previewName) :=
  List.head?_filter

theorem HasPreview.exists_head? (has : field.HasPreview) :
    ∃ argument, field.previews.head? = some argument := by
  rcases has with ⟨argument, member, named⟩
  cases previews : field.previews with
  | nil => simpa [previews] using mem_previews.mpr ⟨member, named⟩
  | cons first rest => exact ⟨first, rfl⟩

end Field

namespace Document

/-- A field at the root of some selections after their spreads are expanded. -/
inductive ExpandedRoot (document : Document) : List Selection → Field → Prop where
  | field {selections : List Selection} {field : Field}
      (root : .field field ∈ Selection.rootsAll selections) :
      ExpandedRoot document selections field
  | spread {selections : List Selection} {fragment : Fragment} {field : Field}
      (member : fragment ∈ document.fragments)
      (spreads : Selection.RootSpreads selections fragment.name)
      (below : ExpandedRoot document fragment.selections field) :
      ExpandedRoot document selections field

/-- All `preview` arguments agree with the variable, and none is missing at the root. -/
structure Unmixed (document : Document) (given : Variables) : Prop where
  arguments : ∀ field ∈ document.fields, ∀ argument ∈ field.arguments,
    argument.1 = previewName → given.Admits (argument.2.resolve given)
  roots : given.previewing → ∀ operation ∈ document.operations, ∀ field,
    document.ExpandedRoot operation.selections field →
      field.HasPreview ∧ ∀ argument ∈ field.arguments, argument.1 = previewName →
        argument.2.resolve given = .bool true

variable {document : Document} {given : Variables}

/-- What the expansion adds at the root comes from fragments that are reachable. -/
theorem ExpandedRoot.exists_reachable {selections : List Selection} {field : Field}
    (expanded : document.ExpandedRoot selections field)
    (reachable : ∀ name, Selection.RootSpreads selections name → document.RootReachable name) :
    .field field ∈ Selection.rootsAll selections ∨
      ∃ fragment ∈ document.fragments, document.RootReachable fragment.name ∧
        .field field ∈ Selection.rootsAll fragment.selections := by
  induction expanded with
  | field root => exact Or.inl root
  | spread member spreads below ih =>
      right
      have above := reachable _ spreads
      rcases ih fun _ spreads => .fragment member spreads above with root | reached
      · exact ⟨_, member, above, root⟩
      · exact reached

theorem ExpandedRoot.exists_root {operation : Operation} {field : Field}
    (member : operation ∈ document.operations)
    (expanded : document.ExpandedRoot operation.selections field) :
    ∃ container, (container, .field field) ∈ document.roots ∧
      ∀ fragment, container = .fragment fragment → document.RootReachable fragment.name := by
  rcases expanded.exists_reachable fun _ spreads => .operation member spreads with
    root | ⟨fragment, defined, reachable, root⟩
  · refine ⟨.operation operation, mem_roots.mpr ⟨operation_mem_containers.mpr member, root⟩, ?_⟩
    rintro _ ⟨⟩
  · refine ⟨.fragment fragment, mem_roots.mpr ⟨fragment_mem_containers.mpr defined, root⟩, ?_⟩
    rintro _ ⟨⟩
    exact reachable

namespace Acceptable

theorem admits_head (acceptable : document.Acceptable given) {field : Field}
    (member : field ∈ document.fields) {argument : String × Value}
    (first : field.previews.head? = some argument) : given.Admits (argument.2.resolve given) := by
  rw [Field.head?_previews] at first
  exact acceptable.arguments field member argument first

theorem hasPreview_of_expandedRoot (acceptable : document.Acceptable given)
    (previewing : given.previewing) {operation : Operation} {field : Field}
    (member : operation ∈ document.operations)
    (expanded : document.ExpandedRoot operation.selections field) : field.HasPreview := by
  rcases expanded.exists_root member with ⟨container, root, reachable⟩
  rcases mem_roots.mp root with ⟨defined, placed⟩
  by_contra lacking
  rcases acceptable.roots previewing container defined field placed lacking with
    ⟨fragment, same, away⟩
  exact away.1 (reachable fragment same)

/-- A document that follows the rules is unmixed if repeated arguments agree as well. -/
theorem unmixed_iff (acceptable : document.Acceptable given) :
    document.Unmixed given ↔ ∀ field ∈ document.fields, ∀ argument ∈ field.previews.tail,
      given.Admits (argument.2.resolve given) := by
  constructor
  · intro unmixed field member argument repeated
    rcases Field.mem_previews.mp (List.mem_of_mem_tail repeated) with ⟨given, named⟩
    exact unmixed.arguments field member argument given named
  · intro repetitions
    have all : ∀ field ∈ document.fields, ∀ argument ∈ field.arguments,
        argument.1 = previewName → given.Admits (argument.2.resolve given) := by
      intro field member argument present named
      have listed := Field.mem_previews.mpr ⟨present, named⟩
      cases previews : field.previews with
      | nil => simp [previews] at listed
      | cons first rest =>
          rw [previews] at listed
          rcases List.mem_cons.mp listed with rfl | repeated
          · exact acceptable.admits_head member (by rw [previews, List.head?_cons])
          · exact repetitions field member argument (by rwa [previews, List.tail_cons])
    refine ⟨all, ?_⟩
    intro previewing operation member field expanded
    refine ⟨acceptable.hasPreview_of_expandedRoot previewing member expanded, ?_⟩
    intro argument present named
    rcases expanded.exists_root member with ⟨_, root, _⟩
    exact (all field (mem_fields_of_mem_roots root) argument present named).eq_true previewing

end Acceptable

/--
An accepted document is unmixed exactly if the repetitions of `preview` arguments agree with
the variable. The first `preview` argument of a field always does, and while previewing no
field at the root of the expanded operation is without one.
-/
theorem accepted_unmixed_iff (document : Document) (given : Variables)
    (accepted : document.validate given = .ok ()) :
    (document.Unmixed given ↔ ∀ field ∈ document.fields, ∀ argument ∈ field.previews.tail,
        given.Admits (argument.2.resolve given)) ∧
      (∀ field ∈ document.fields, ∀ argument, field.previews.head? = some argument →
        given.Admits (argument.2.resolve given)) ∧
      (given.previewing → ∀ operation ∈ document.operations, ∀ field,
        document.ExpandedRoot operation.selections field →
          ∃ argument, field.previews.head? = some argument ∧
            argument.2.resolve given = .bool true) := by
  have acceptable := (validate_eq_ok_iff document given).mp accepted
  refine ⟨acceptable.unmixed_iff, fun field member argument first =>
    acceptable.admits_head member first, ?_⟩
  intro previewing operation member field expanded
  rcases expanded.exists_root member with ⟨_, root, _⟩
  rcases (acceptable.hasPreview_of_expandedRoot previewing member expanded).exists_head? with
    ⟨argument, first⟩
  have admits := acceptable.admits_head (mem_fields_of_mem_roots root) first
  exact ⟨argument, first, admits.eq_true previewing⟩

/--
The document `{ ...Top posts(preview: true) { ...Author } }` with the fragments
`Top { pages(preview: $preview) }` and `Author { name }`.
-/
def sharedFragments : Document :=
  ⟨[.operation ⟨⟨⟨1, 1⟩, .query, [], [],
      [.spread ⟨⟨1, 3⟩, "Top", []⟩,
        .field ⟨⟨1, 10⟩, none, "posts", [("preview", .boolean true)], []⟩
          [.spread ⟨⟨1, 33⟩, "Author", []⟩]]⟩, none⟩,
    .fragment ⟨⟨⟨2, 1⟩, "Query", [],
      [.field ⟨⟨2, 25⟩, none, "pages", [("preview", .variable "preview")], []⟩ []]⟩, "Top"⟩,
    .fragment ⟨⟨⟨3, 1⟩, "Post", [],
      [.field ⟨⟨3, 27⟩, none, "name", [], []⟩ []]⟩, "Author"⟩]⟩

theorem sharedFragments_unmixed :
    sharedFragments.validate (.ofList [("preview", .bool true)]) = .ok () ∧
      sharedFragments.Unmixed (.ofList [("preview", .bool true)]) := by
  have accepted : sharedFragments.validate (.ofList [("preview", .bool true)]) = .ok () := by
    decide +kernel
  refine ⟨accepted, (accepted_unmixed_iff _ _ accepted).1.mpr ?_⟩
  have single : ∀ field ∈ sharedFragments.fields, field.previews.tail.length = 0 := by decide
  intro field member argument repeated
  rw [List.length_eq_zero_iff.mp (single field member)] at repeated
  cases repeated

/-- The document `{ posts(preview: true, preview: false) }`. -/
def repeatedPreview : Document :=
  ⟨[.operation ⟨⟨⟨1, 1⟩, .query, [], [],
      [.field ⟨⟨1, 3⟩, none, "posts",
        [("preview", .boolean true), ("preview", .boolean false)], []⟩ []]⟩, none⟩]⟩

/-- A second `preview` argument is not looked at. -/
theorem repeatedPreview_mixed :
    repeatedPreview.validate (.ofList [("preview", .bool true)]) = .ok () ∧
      ¬repeatedPreview.Unmixed (.ofList [("preview", .bool true)]) := by
  refine ⟨rfl, ?_⟩
  intro unmixed
  have admits := unmixed.arguments _ List.mem_cons_self ("preview", .boolean false)
    (List.mem_cons_of_mem _ List.mem_cons_self) rfl
  cases admits.2

end Document

end PreviewLint
