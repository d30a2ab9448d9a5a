import PreviewLint.Proofs.FirstViolation

/-!
# Documents that are validated alike

A validation does not see all of a document. Of an operation it sees the kind and the
place, and of the definition at whose root a field stands only whether it is an operation
or a fragment of some name. What is nested below a field or an inline fragment matters
through the subjects of the document and the users of its fragments alone.

Two documents that agree in this resemble each other, and every validation of the one
answers what it answers for the other, the violation and the names along a cycle included.
-/

namespace PreviewLint

namespace Container

/-- The name by which a search knows a definition: that of a fragment, or none. -/
def label : Container → Option String
  | operation _ => none
  | fragment defined => some defined.name

end Container

/-- Two subjects between which a validation sees no difference. -/
inductive Subject.Resembles : Subject → Subject → Prop where
  | operation {first second : Operation} (kind : first.kind = second.kind)
      (position : first.position = second.position) :
      Resembles (.operation first) (.operation second)
  | variable (definition : VariableDefinition) :
      Resembles (.variable definition) (.variable definition)
  | field (field : Field) {first second : Option Container}
      (labels : first.map Container.label = second.map Container.label) :
      Resembles (.field field first) (.field field second)

theorem Subject.Resembles.refl (subject : Subject) : subject.Resembles subject := by
  cases subject with
  | operation operation => exact .operation rfl rfl
  | field field root => exact .field field rfl
  | _ => exact .variable _

/-- Two documents between which a validation sees no difference. -/
structure Document.Resembles (first second : Document) : Prop where
  operations : first.operations.length = second.operations.length
  subjects : List.Forall₂ Subject.Resembles first.subjects second.subjects
  users : ∀ name,
    (first.users name).map Container.label = (second.users name).map Container.label

/-- Users are told apart by their labels only. -/
theorem anyUser_congr {m : Type → Type} [Monad m] {visit visitOther : String → m Bool}
    {users others : List Container}
    (labels : users.map Container.label = others.map Container.label)
    (agree : ∀ name, some name ∈ users.map Container.label → visit name = visitOther name) :
    anyUser visit users = anyUser visitOther others := by
  induction users generalizing others with
  | nil =>
      rw [List.map_nil] at labels
      rw [List.map_eq_nil_iff.mp labels.symm]
      rfl
  | cons user users ih =>
      cases others with
      | nil => cases labels
      | cons other others =>
          rw [List.map_cons, List.map_cons, List.cons.injEq] at labels
          obtain ⟨first, rest⟩ := labels
          cases user with
          | operation operation =>
              cases other with
              | operation other => rfl
              | fragment other => cases first
          | fragment fragment =>
              cases other with
              | operation other => cases first
              | fragment other =>
                  have names : fragment.name = other.name := Option.some.inj first
                  have visits := agree fragment.name List.mem_cons_self
                  have later := ih rest fun name member =>
                    agree name (List.mem_cons_of_mem _ member)
                  simp only [anyUser, later, ← names, visits]

namespace Document

theorem label_mem_fragmentNames {document : Document} {name user : String}
    (member : some user ∈ (document.users name).map Container.label) :
    user ∈ document.fragmentNames := by
  rcases List.mem_map.mp member with ⟨container, present, labelled⟩
  cases container with
  | operation operation => cases labelled
  | fragment fragment =>
      cases labelled
      exact fragmentName_mem present

namespace Resembles

variable {first second : Document}

theorem searchFrom_eq (resembles : first.Resembles second) {asked name : String}
    {path : List String} (known : name ∈ asked :: first.fragmentNames)
    (knownSecond : name ∈ asked :: second.fragmentNames) :
    first.searchFrom asked path name = second.searchFrom asked path name := by
  induction path, name using searchFrom.induct first asked with
  | case1 path name member ih =>
      have fresh : name ∉ path := (mem_unvisited.mp member).2
      rw [searchFrom_eq_ite known, searchFrom_eq_ite knownSecond, if_neg fresh, if_neg fresh]
      apply anyUser_congr (resembles.users name)
      intro user labelled
      -- A user that both documents know is looked for in both of them.
      have labelledSecond := labelled
      rw [resembles.users name] at labelledSecond
      exact ih user (List.mem_cons_of_mem _ (label_mem_fragmentNames labelled))
        (List.mem_cons_of_mem _ (label_mem_fragmentNames labelledSecond))
  | case2 path name visited =>
      have onPath : name ∈ path := by
        by_contra fresh
        exact visited (mem_unvisited.mpr ⟨known, fresh⟩)
      rw [searchFrom_eq_ite known, searchFrom_eq_ite knownSecond, if_pos onPath, if_pos onPath]

theorem search_eq (resembles : first.Resembles second) (name : String) :
    first.search name = second.search name :=
  resembles.searchFrom_eq List.mem_cons_self List.mem_cons_self

theorem reachesRoot_eq (resembles : first.Resembles second) {root other : Option Container}
    (labels : root.map Container.label = other.map Container.label) :
    first.reachesRoot root = second.reachesRoot other := by
  cases root with
  | none =>
      rw [Option.map_none] at labels
      rw [Option.map_eq_none_iff.mp labels.symm]
      rfl
  | some container =>
      rcases Option.map_eq_some_iff.mp labels.symm with ⟨container', rfl, label⟩
      cases container with
      | operation operation =>
          cases container' with
          | operation operation => rfl
          | fragment fragment => cases label
      | fragment fragment =>
          cases container' with
          | operation operation => cases label
          | fragment fragment' =>
              have names : fragment'.name = fragment.name := Option.some.inj label
              rw [reachesRoot, reachesRoot, names, resembles.search_eq]

theorem violationAt?_eq (resembles : first.Resembles second) (given : Variables)
    {subject other : Subject} (alike : subject.Resembles other) :
    first.violationAt? given subject = second.violationAt? given other := by
  cases alike with
  | operation kind position => rw [violationAt?, violationAt?, kind, position]
  | field field labels =>
      simp only [violationAt?, fieldViolation?, resembles.reachesRoot_eq labels]
  | _ => rfl

/-- What two documents show to a validation decides all of their violations. -/
theorem violations_eq (resembles : first.Resembles second) (given : Variables) :
    first.violations given = second.violations given := by
  have step : ∀ {subjects others : List Subject},
      List.Forall₂ Subject.Resembles subjects others →
        subjects.filterMap (first.violationAt? given) =
          others.filterMap (second.violationAt? given) := by
    intro subjects others alike
    induction alike with
    | nil => rfl
    | cons head _ ih =>
        rw [List.filterMap_cons, List.filterMap_cons, resembles.violationAt?_eq given head, ih]
  exact step resembles.subjects

end Resembles

/-- An answer depends on the number of operations and on the violations only. -/
theorem validate_congr {first second : Document} {given other : Variables}
    (operations : first.operations.length = second.operations.length)
    (violations : first.violations given = second.violations other) :
    first.validate given = second.validate other := by
  rw [validate_eq_outcome, validate_eq_outcome, operations, violations]

theorem Resembles.validate_eq {first second : Document} (resembles : first.Resembles second)
    (given : Variables) : first.validate given = second.validate given :=
  validate_congr resembles.operations (resembles.violations_eq given)

end Document

end PreviewLint
