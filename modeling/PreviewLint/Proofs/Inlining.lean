import PreviewLint.Proofs.Mixing

/-!
# Inlining a fragment

A spread of a fragment can be replaced by an inline fragment with the same selections. This
removes one edge of the graph of fragments and adds others, may leave the fragment without
any use, and repeats its fields at another place. What it does not change is the expansion of
the operation, in which every spread is replaced in the end.

Where no fragment reaches itself, a document is accepted exactly if its operation and its
arguments are, and no field at the root of the expansion is without a `preview` argument. So
inlining keeps the documents that are accepted. It does not keep the violations: a field that
lacks its argument may be met earlier than before.
-/

namespace PreviewLint

namespace Selection

/-- One spread of a fragment is replaced by an inline fragment with its selections. -/
inductive Inlines (fragment : Fragment) : List Selection → List Selection → Prop where
  | spread {spread : Spread} (named : spread.name = fragment.name) (head : InlineFragment)
      (rest : List Selection) :
      Inlines fragment (.spread spread :: rest) (.inline head fragment.selections :: rest)
  | field {inner other : List Selection} (below : Inlines fragment inner other) (head : Field)
      (rest : List Selection) :
      Inlines fragment (.field head inner :: rest) (.field head other :: rest)
  | inline {inner other : List Selection} (below : Inlines fragment inner other)
      (head : InlineFragment) (rest : List Selection) :
      Inlines fragment (.inline head inner :: rest) (.inline head other :: rest)
  | later {rest other : List Selection} (below : Inlines fragment rest other)
      (first : Selection) : Inlines fragment (first :: rest) (first :: other)

/-- At most one spread of a fragment is replaced. -/
def InlinesAtMost (fragment : Fragment) (selections other : List Selection) : Prop :=
  other = selections ∨ Inlines fragment selections other

variable {fragment : Fragment} {selections other : List Selection}

namespace Inlines

/-- What is new at the root stands at the root of the fragment, which was spread there. -/
theorem mem_rootsAll_before (inlines : Inlines fragment selections other) {node : Node}
    (root : node ∈ rootsAll other) :
    node ∈ rootsAll selections ∨
      (node ∈ rootsAll fragment.selections ∧ RootSpreads selections fragment.name) := by
  induction inlines with
  | @spread spread named head rest =>
      rcases List.mem_append.mp root with inside | later
      · exact Or.inr ⟨inside, spread, List.mem_cons_self, named⟩
      · exact Or.inl (List.mem_append_right _ later)
  | field below head rest ih => exact Or.inl root
  | inline below head rest ih =>
      rcases List.mem_append.mp root with inside | later
      · rcases ih inside with kept | ⟨inside, spread, placed, named⟩
        · exact Or.inl (List.mem_append_left _ kept)
        · exact Or.inr ⟨inside, spread, List.mem_append_left _ placed, named⟩
      · exact Or.inl (List.mem_append_right _ later)
  | later below first ih =>
      rcases List.mem_append.mp root with here | later
      · exact Or.inl (List.mem_append_left _ here)
      · rcases ih later with kept | ⟨inside, spread, placed, named⟩
        · exact Or.inl (List.mem_append_right _ kept)
        · exact Or.inr ⟨inside, spread, List.mem_append_right _ placed, named⟩

/-- Only a spread of the fragment leaves the root, and what the fragment holds comes there. -/
theorem mem_rootsAll_after (inlines : Inlines fragment selections other) {node : Node}
    (root : node ∈ rootsAll selections) :
    node ∈ rootsAll other ∨
      ((∃ spread, node = .spread spread ∧ spread.name = fragment.name) ∧
        rootsAll fragment.selections ⊆ rootsAll other) := by
  induction inlines with
  | @spread spread named head rest =>
      rcases List.mem_cons.mp root with rfl | later
      · exact Or.inr ⟨⟨spread, rfl, named⟩, List.subset_append_left _ _⟩
      · exact Or.inl (List.mem_append_right _ later)
  | field below head rest ih => exact Or.inl root
  | inline below head rest ih =>
      rcases List.mem_append.mp root with inside | later
      · rcases ih inside with kept | ⟨spread, moved⟩
        · exact Or.inl (List.mem_append_left _ kept)
        · exact Or.inr ⟨spread, List.subset_append_of_subset_left _ moved⟩
      · exact Or.inl (List.mem_append_right _ later)
  | later below first ih =>
      rcases List.mem_append.mp root with here | later
      · exact Or.inl (List.mem_append_left _ here)
      · rcases ih later with kept | ⟨spread, moved⟩
        · exact Or.inl (List.mem_append_right _ kept)
        · exact Or.inr ⟨spread, List.subset_append_of_subset_right _ moved⟩

theorem mem_fieldsAll_before (inlines : Inlines fragment selections other) {field : Field}
    (member : field ∈ fieldsAll other) :
    field ∈ fieldsAll selections ∨ field ∈ fieldsAll fragment.selections := by
  induction inlines with
  | spread named head rest =>
      rcases List.mem_append.mp member with inside | later
      · exact Or.inr inside
      · exact Or.inl (List.mem_append_right _ later)
  | field below head rest ih =>
      simp only [fieldsAll, fields, List.mem_append, List.mem_cons] at member ⊢
      tauto
  | inline below head rest ih =>
      simp only [fieldsAll, fields, List.mem_append] at member ⊢
      tauto
  | later below first ih =>
      simp only [fieldsAll, List.mem_append] at member ⊢
      tauto

theorem mem_fieldsAll_after (inlines : Inlines fragment selections other) {field : Field}
    (member : field ∈ fieldsAll selections) : field ∈ fieldsAll other := by
  induction inlines with
  | spread named head rest => exact List.mem_append_right _ member
  | field below head rest ih =>
      simp only [fieldsAll, fields, List.mem_append, List.mem_cons] at member ⊢
      tauto
  | inline below head rest ih =>
      simp only [fieldsAll, fields, List.mem_append] at member ⊢
      tauto
  | later below first ih =>
      simp only [fieldsAll, List.mem_append] at member ⊢
      tauto

end Inlines

namespace InlinesAtMost

theorem mem_rootsAll_before (inlines : InlinesAtMost fragment selections other) {node : Node}
    (root : node ∈ rootsAll other) :
    node ∈ rootsAll selections ∨
      (node ∈ rootsAll fragment.selections ∧ RootSpreads selections fragment.name) := by
  rcases inlines with rfl | inlines
  · exact Or.inl root
  · exact inlines.mem_rootsAll_before root

theorem field_mem_rootsAll (inlines : InlinesAtMost fragment selections other) {field : Field}
    (root : .field field ∈ rootsAll selections) : .field field ∈ rootsAll other := by
  rcases inlines with rfl | inlines
  · exact root
  · rcases inlines.mem_rootsAll_after root with kept | ⟨⟨_, same, _⟩, _⟩
    · exact kept
    · cases same

/-- A spread stays, or what it stands for comes to the root. -/
theorem rootSpreads_or_subset (inlines : InlinesAtMost fragment selections other) {name : String}
    (spreads : RootSpreads selections name) :
    RootSpreads other name ∨
      (name = fragment.name ∧ rootsAll fragment.selections ⊆ rootsAll other) := by
  rcases spreads with ⟨spread, placed, rfl⟩
  rcases inlines with rfl | inlines
  · exact Or.inl ⟨spread, placed, rfl⟩
  · rcases inlines.mem_rootsAll_after placed with kept | ⟨⟨_, same, named⟩, moved⟩
    · exact Or.inl ⟨spread, kept, rfl⟩
    · cases same
      exact Or.inr ⟨named, moved⟩

/-- A spread was there before, or comes with the fragment that was spread. -/
theorem rootSpreads_before (inlines : InlinesAtMost fragment selections other) {name : String}
    (spreads : RootSpreads other name) :
    RootSpreads selections name ∨
      (RootSpreads fragment.selections name ∧ RootSpreads selections fragment.name) := by
  rcases spreads with ⟨spread, placed, named⟩
  rcases inlines.mem_rootsAll_before placed with kept | ⟨inside, spreads⟩
  · exact Or.inl ⟨spread, kept, named⟩
  · exact Or.inr ⟨⟨spread, inside, named⟩, spreads⟩

theorem mem_fieldsAll_before (inlines : InlinesAtMost fragment selections other) {field : Field}
    (member : field ∈ fieldsAll other) :
    field ∈ fieldsAll selections ∨ field ∈ fieldsAll fragment.selections := by
  rcases inlines with rfl | inlines
  · exact Or.inl member
  · exact inlines.mem_fieldsAll_before member

theorem mem_fieldsAll_after (inlines : InlinesAtMost fragment selections other) {field : Field}
    (member : field ∈ fieldsAll selections) : field ∈ fieldsAll other := by
  rcases inlines with rfl | inlines
  · exact member
  · exact inlines.mem_fieldsAll_after member

end InlinesAtMost

end Selection

/-- One spread of a fragment is replaced in the selections of a definition. -/
inductive Definition.Inlines (fragment : Fragment) : Definition → Definition → Prop where
  | operation {defined : Operation} {selections : List Selection}
      (below : Selection.Inlines fragment defined.selections selections) :
      Inlines fragment (.operation defined) (.operation { defined with selections })
  | fragment {defined : Fragment} {selections : List Selection}
      (below : Selection.Inlines fragment defined.selections selections) :
      Inlines fragment (.fragment defined) (.fragment { defined with selections })

namespace Document

/-- One spread of a fragment is replaced in one definition of a document. -/
inductive Inlines (fragment : Fragment) : Document → Document → Prop where
  | definition {defined changed : Definition} (before after : List Definition)
      (below : Definition.Inlines fragment defined changed) :
      Inlines fragment ⟨before ++ defined :: after⟩ ⟨before ++ changed :: after⟩

/-! ## What a document and its changed form have in common -/

/-- An operation, and what becomes of it when at most one spread is replaced in it. -/
structure OperationInlines (fragment : Fragment) (operation other : Operation) : Prop where
  kind : other.kind = operation.kind
  variableDefinitions : other.variableDefinitions = operation.variableDefinitions
  selections : Selection.InlinesAtMost fragment operation.selections other.selections

/-- A fragment, and what becomes of it when at most one spread is replaced in it. -/
structure FragmentInlines (fragment defined other : Fragment) : Prop where
  name : other.name = defined.name
  selections : Selection.InlinesAtMost fragment defined.selections other.selections

theorem exists_of_forall₂_left {α β : Type} {related : α → β → Prop} {items : List α}
    {others : List β} (all : List.Forall₂ related items others) {item : α}
    (member : item ∈ items) : ∃ other ∈ others, related item other := by
  induction all with
  | nil => cases member
  | cons head _ ih =>
      rcases List.mem_cons.mp member with rfl | member
      · exact ⟨_, List.mem_cons_self, head⟩
      · rcases ih member with ⟨other, present, related⟩
        exact ⟨other, List.mem_cons_of_mem _ present, related⟩

theorem exists_of_forall₂_right {α β : Type} {related : α → β → Prop} {items : List α}
    {others : List β} (all : List.Forall₂ related items others) {other : β}
    (member : other ∈ others) : ∃ item ∈ items, related item other := by
  have flipped : List.Forall₂ (flip related) others items := List.Forall₂.flip all
  exact exists_of_forall₂_left flipped member

namespace Inlines

variable {fragment : Fragment} {document other : Document}

theorem operations (inlines : Inlines fragment document other) :
    List.Forall₂ (OperationInlines fragment) document.operations other.operations := by
  have same : ∀ operations : List Operation,
      List.Forall₂ (OperationInlines fragment) operations operations :=
    fun _ => List.forall₂_same.mpr fun _ _ => ⟨rfl, rfl, Or.inl rfl⟩
  cases inlines with
  | definition before after below =>
      simp only [Document.operations, List.filterMap_append, List.filterMap_cons]
      apply List.rel_append (same _)
      cases below with
      | operation below => exact .cons ⟨rfl, rfl, Or.inr below⟩ (same _)
      | fragment below => exact same _

theorem fragments (inlines : Inlines fragment document other) :
    List.Forall₂ (FragmentInlines fragment) document.fragments other.fragments := by
  have same : ∀ fragments : List Fragment,
      List.Forall₂ (FragmentInlines fragment) fragments fragments :=
    fun _ => List.forall₂_same.mpr fun _ _ => ⟨rfl, Or.inl rfl⟩
  cases inlines with
  | definition before after below =>
      simp only [Document.fragments, List.filterMap_append, List.filterMap_cons]
      apply List.rel_append (same _)
      cases below with
      | operation below => exact same _
      | fragment below => exact .cons ⟨rfl, Or.inr below⟩ (same _)

theorem mem_fields_iff (inlines : Inlines fragment document other)
    (defined : fragment ∈ document.fragments) {field : Field} :
    field ∈ other.fields ↔ field ∈ document.fields := by
  have fields_iff : ∀ {document : Document}, field ∈ document.fields ↔
      (∃ operation ∈ document.operations, field ∈ Selection.fieldsAll operation.selections) ∨
        ∃ fragment ∈ document.fragments, field ∈ Selection.fieldsAll fragment.selections := by
    intro document
    rw [fields, List.mem_flatMap]
    constructor
    · rintro ⟨container, member, present⟩
      cases container with
      | operation operation => exact Or.inl ⟨operation, operation_mem_containers.mp member, present⟩
      | fragment fragment => exact Or.inr ⟨fragment, fragment_mem_containers.mp member, present⟩
    · rintro (⟨operation, member, present⟩ | ⟨fragment, member, present⟩)
      · exact ⟨.operation operation, operation_mem_containers.mpr member, present⟩
      · exact ⟨.fragment fragment, fragment_mem_containers.mpr member, present⟩
  rw [fields_iff, fields_iff]
  constructor
  · rintro (⟨operation, member, present⟩ | ⟨user, member, present⟩)
    · rcases exists_of_forall₂_right inlines.operations member with ⟨original, member, related⟩
      rcases related.selections.mem_fieldsAll_before present with kept | inside
      · exact Or.inl ⟨original, member, kept⟩
      · exact Or.inr ⟨fragment, defined, inside⟩
    · rcases exists_of_forall₂_right inlines.fragments member with ⟨original, member, related⟩
      rcases related.selections.mem_fieldsAll_before present with kept | inside
      · exact Or.inr ⟨original, member, kept⟩
      · exact Or.inr ⟨fragment, defined, inside⟩
  · rintro (⟨operation, member, present⟩ | ⟨user, member, present⟩)
    · rcases exists_of_forall₂_left inlines.operations member with ⟨changed, member, related⟩
      exact Or.inl ⟨changed, member, related.selections.mem_fieldsAll_after present⟩
    · rcases exists_of_forall₂_left inlines.fragments member with ⟨changed, member, related⟩
      exact Or.inr ⟨changed, member, related.selections.mem_fieldsAll_after present⟩

/-- The edges that inlining adds are paths of two edges. -/
theorem not_onCycle (inlines : Inlines fragment document other)
    (defined : fragment ∈ document.fragments) (acyclic : ∀ name, ¬document.OnCycle name)
    (name : String) : ¬other.OnCycle name := by
  have edges : other.SpreadIn ≤ Relation.TransGen document.SpreadIn := by
    rintro name user ⟨changed, member, named, spreads⟩
    rcases exists_of_forall₂_right inlines.fragments member with ⟨original, member, related⟩
    have originalNamed : original.name = user := related.name.symm.trans named
    rcases related.selections.rootSpreads_before spreads with kept | ⟨inside, outside⟩
    · exact .single ⟨original, member, originalNamed, kept⟩
    · exact .tail (.single ⟨fragment, defined, rfl, inside⟩) ⟨original, member, originalNamed, outside⟩
  intro cycle
  exact acyclic name (Relation.TransGen.closed edges name name cycle)

end Inlines

/-! ## The expansion of the operation -/

theorem ExpandedRoot.mono {document : Document} {selections more : List Selection} {field : Field}
    (expanded : document.ExpandedRoot selections field)
    (subset : Selection.rootsAll selections ⊆ Selection.rootsAll more) :
    document.ExpandedRoot more field := by
  cases expanded with
  | field root => exact .field (subset root)
  | spread member spreads below =>
      rcases spreads with ⟨spread, placed, named⟩
      exact .spread member ⟨spread, subset placed, named⟩ below

theorem eq_of_name_eq {document : Document} (unique : document.fragmentNames.Nodup)
    {first second : Fragment} (member : first ∈ document.fragments)
    (memberSecond : second ∈ document.fragments) (same : first.name = second.name) :
    first = second :=
  List.inj_on_of_nodup_map unique member memberSecond same

namespace Inlines

variable {fragment : Fragment} {document other : Document}

/-- The expansion keeps its root fields: a spread that is gone has left its fields there. -/
theorem expandedRoot_after (inlines : Inlines fragment document other)
    (unique : document.fragmentNames.Nodup) (defined : fragment ∈ document.fragments)
    {selections changed : List Selection} {field : Field}
    (expanded : document.ExpandedRoot selections field)
    (related : Selection.InlinesAtMost fragment selections changed) :
    other.ExpandedRoot changed field := by
  induction expanded generalizing changed with
  | field root => exact .field (related.field_mem_rootsAll root)
  | @spread selections user field member spreads below ih =>
      rcases related.rootSpreads_or_subset spreads with kept | ⟨named, moved⟩
      · rcases exists_of_forall₂_left inlines.fragments member with ⟨user', present, changes⟩
        rw [← changes.name] at kept
        exact .spread present kept (ih changes.selections)
      · cases eq_of_name_eq unique member defined named
        exact (ih (Or.inl rfl)).mono moved

/-- The expansion gains no root field: what is new comes from the fragment that was spread. -/
theorem expandedRoot_before (inlines : Inlines fragment document other)
    (defined : fragment ∈ document.fragments) {selections changed : List Selection}
    {field : Field} (expanded : other.ExpandedRoot changed field)
    (related : Selection.InlinesAtMost fragment selections changed) :
    document.ExpandedRoot selections field := by
  induction expanded generalizing selections with
  | field root =>
      rcases related.mem_rootsAll_before root with kept | ⟨inside, spreads⟩
      · exact .field kept
      · exact .spread defined spreads (.field inside)
  | @spread changed user field member spreads below ih =>
      rcases exists_of_forall₂_right inlines.fragments member with ⟨original, present, changes⟩
      have expanded := ih changes.selections
      rw [changes.name] at spreads
      rcases related.rootSpreads_before spreads with kept | ⟨inside, outside⟩
      · exact .spread present kept expanded
      · exact .spread defined outside (.spread present inside expanded)

end Inlines

/-- What stands at the root of a reachable fragment stands at the root of the expansion. -/
theorem RootReachable.exists_expandedRoot {document : Document} {name : String}
    (reachable : document.RootReachable name) {fragment : Fragment}
    (member : fragment ∈ document.fragments) (named : fragment.name = name) {field : Field}
    (expanded : document.ExpandedRoot fragment.selections field) :
    ∃ operation ∈ document.operations, document.ExpandedRoot operation.selections field := by
  induction reachable generalizing fragment with
  | operation defined spreads =>
      subst named
      exact ⟨_, defined, .spread member spreads expanded⟩
  | fragment defined spreads _ ih =>
      subst named
      exact ih defined rfl (.spread member spreads expanded)

/-- Without cycles, the rules for roots are about the expansion of the operation. -/
theorem acceptable_iff_of_acyclic {document : Document} {given : Variables}
    (acyclic : ∀ name, ¬document.OnCycle name) :
    document.Acceptable given ↔
      (∃ operation, document.operations = [operation] ∧ operation.kind = .query ∧
        ∀ definition ∈ operation.variableDefinitions, definition.name = previewName →
          ∃ nonNull, definition.type = .named "Boolean" nonNull) ∧
      (∀ field ∈ document.fields, ∀ argument,
        field.arguments.find? (·.1 == previewName) = some argument →
          given.Admits (argument.2.resolve given)) ∧
      (given.previewing → ∀ operation ∈ document.operations, ∀ field,
        document.ExpandedRoot operation.selections field → field.HasPreview) := by
  constructor
  · intro acceptable
    exact ⟨acceptable.operation, acceptable.arguments, fun previewing operation member field
      expanded => acceptable.hasPreview_of_expandedRoot previewing member expanded⟩
  · rintro ⟨operation, arguments, expansion⟩
    refine ⟨operation, arguments, ?_⟩
    intro previewing container member field root lacking
    cases container with
    | operation operation =>
        have has := expansion previewing operation (operation_mem_containers.mp member) field
          (.field root)
        exact absurd has lacking
    | fragment fragment =>
        refine ⟨fragment, rfl, ?_, fun other _ => acyclic other⟩
        intro reachable
        rcases reachable.exists_expandedRoot (fragment_mem_containers.mp member) rfl
          (.field root) with ⟨operation, defined, expanded⟩
        exact lacking (expansion previewing operation defined field expanded)

theorem Inlines.operation_iff {fragment : Fragment} {document other : Document}
    (inlines : Inlines fragment document other) :
    (∃ operation, other.operations = [operation] ∧ operation.kind = .query ∧
        ∀ definition ∈ operation.variableDefinitions, definition.name = previewName →
          ∃ nonNull, definition.type = .named "Boolean" nonNull) ↔
      ∃ operation, document.operations = [operation] ∧ operation.kind = .query ∧
        ∀ definition ∈ operation.variableDefinitions, definition.name = previewName →
          ∃ nonNull, definition.type = .named "Boolean" nonNull := by
  have all := inlines.operations
  constructor
  · rintro ⟨changed, single, query, types⟩
    rw [single, List.forall₂_cons_right_iff] at all
    rcases all with ⟨operation, rest, related, none, single⟩
    cases List.forall₂_nil_right_iff.mp none
    refine ⟨operation, single, related.kind ▸ query, ?_⟩
    rw [← related.variableDefinitions]
    exact types
  · rintro ⟨operation, single, query, types⟩
    rw [single, List.forall₂_cons_left_iff] at all
    rcases all with ⟨changed, rest, related, none, single⟩
    cases List.forall₂_nil_left_iff.mp none
    refine ⟨changed, single, related.kind ▸ query, ?_⟩
    rw [related.variableDefinitions]
    exact types

theorem Inlines.expansion_iff {fragment : Fragment} {document other : Document}
    (inlines : Inlines fragment document other) (unique : document.fragmentNames.Nodup)
    (defined : fragment ∈ document.fragments) :
    (∀ operation ∈ other.operations, ∀ field,
        other.ExpandedRoot operation.selections field → field.HasPreview) ↔
      ∀ operation ∈ document.operations, ∀ field,
        document.ExpandedRoot operation.selections field → field.HasPreview := by
  constructor
  · intro has operation member field expanded
    rcases exists_of_forall₂_left inlines.operations member with ⟨changed, present, related⟩
    exact has changed present field
      (inlines.expandedRoot_after unique defined expanded related.selections)
  · intro has changed member field expanded
    rcases exists_of_forall₂_right inlines.operations member with ⟨operation, present, related⟩
    exact has operation present field
      (inlines.expandedRoot_before defined expanded related.selections)

/--
Where fragments have names of their own and none reaches itself through spreads at roots,
replacing any single spread of a fragment by an inline fragment with its selections keeps the
document accepted or refused.
-/
theorem inlined_accepted_iff {fragment : Fragment} {document other : Document}
    (unique : document.fragmentNames.Nodup) (acyclic : ∀ name, ¬document.OnCycle name)
    (defined : fragment ∈ document.fragments) (inlines : Inlines fragment document other)
    (given : Variables) :
    other.validate given = .ok () ↔ document.validate given = .ok () := by
  rw [validate_eq_ok_iff, validate_eq_ok_iff, acceptable_iff_of_acyclic acyclic,
    acceptable_iff_of_acyclic (inlines.not_onCycle defined acyclic), inlines.operation_iff,
    inlines.expansion_iff unique defined]
  simp only [inlines.mem_fields_iff defined]

/-- The fragment `Deep { pages }`. -/
def deepFragment : Fragment :=
  ⟨⟨⟨3, 1⟩, "Query", [], [.field ⟨⟨3, 26⟩, none, "pages", [], []⟩ []]⟩, "Deep"⟩

/-- The document `{ ...Top }` with the fragment `Deep` and a fragment `Top`. -/
def chainedFragments (top : List Selection) : Document :=
  ⟨[.operation ⟨⟨⟨1, 1⟩, .query, [], [], [.spread ⟨⟨1, 3⟩, "Top", []⟩]⟩, none⟩,
    .fragment ⟨⟨⟨2, 1⟩, "Query", [], top⟩, "Top"⟩, .fragment deepFragment]⟩

theorem chainedFragments_acyclic (name : String) :
    ¬(chainedFragments [.spread ⟨⟨2, 25⟩, "Deep", []⟩]).OnCycle name := by
  have edge : ∀ name user,
      (chainedFragments [.spread ⟨⟨2, 25⟩, "Deep", []⟩]).SpreadIn name user →
        name = "Deep" ∧ user = "Top" := by
    rintro name user ⟨fragment, member, rfl, spread, placed, rfl⟩
    simp only [chainedFragments, deepFragment, fragments, List.filterMap_cons,
      Definition.fragment?, List.filterMap_nil, List.mem_cons, List.not_mem_nil,
      or_false] at member
    rcases member with rfl | rfl
    · simp only [Selection.rootsAll, Selection.roots, List.append_nil, List.mem_singleton,
        Node.spread.injEq] at placed
      subst placed
      exact ⟨rfl, rfl⟩
    · simp [Selection.rootsAll, Selection.roots] at placed
  intro cycle
  rcases Relation.TransGen.head'_iff.mp cycle with ⟨_, out, _⟩
  rcases Relation.TransGen.tail'_iff.mp cycle with ⟨_, _, back⟩
  have both := (edge _ _ out).1.symm.trans (edge _ _ back).2
  exact absurd both (by decide)

/-- Inlining `Deep` into `Top` keeps the document refused, though nothing spreads `Deep` then. -/
theorem chainedFragments_inlined :
    Inlines deepFragment (chainedFragments [.spread ⟨⟨2, 25⟩, "Deep", []⟩])
        (chainedFragments [.inline ⟨⟨2, 25⟩, none, []⟩ deepFragment.selections]) ∧
      (chainedFragments [.inline ⟨⟨2, 25⟩, none, []⟩ deepFragment.selections]).validate
        (.ofList [("preview", .bool true)]) ≠ .ok () := by
  have inlines : Inlines deepFragment (chainedFragments [.spread ⟨⟨2, 25⟩, "Deep", []⟩])
      (chainedFragments [.inline ⟨⟨2, 25⟩, none, []⟩ deepFragment.selections]) :=
    .definition [_] [_] (.fragment (.spread rfl _ []))
  have refused : (chainedFragments [.spread ⟨⟨2, 25⟩, "Deep", []⟩]).validate
      (.ofList [("preview", .bool true)]) = .error (.rootPreviewMissing "pages" ⟨3, 26⟩) := by
    decide +kernel
  have defined : deepFragment ∈ (chainedFragments [.spread ⟨⟨2, 25⟩, "Deep", []⟩]).fragments :=
    List.mem_of_mem_tail List.mem_cons_self
  refine ⟨inlines, ?_⟩
  rw [Ne, inlined_accepted_iff (by decide) chainedFragments_acyclic defined inlines, refused]
  rintro ⟨⟩

end Document

end PreviewLint
