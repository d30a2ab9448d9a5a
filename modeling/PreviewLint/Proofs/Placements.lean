import PreviewLint.Proofs.Roots

/-!
# Placements from the top

The placement of a field or a spread is read off what a walk hands out as standing above it,
from the node up. This file places the fields and spreads of a document in the other
direction, from its definitions down: a selection set hands its placement on to its inline
fragments, and nothing below a field is at the root of anything.

The two agree on every field and spread of every document. Those that are placed at the root
of a definition are therefore the fields and spreads at its root from the top, in order and
as often as they stand there, and all others are nested.
-/

namespace PreviewLint

/-- A field or a spread, and where it stands. -/
abbrev Standing := Node × Placement

mutual

/-- The fields and spreads of a selection that stands at `placement`, in order. -/
def Selection.placed (placement : Placement) : Selection → List Standing
  | .field head selections => (.field head, placement) :: Selection.placedAll .nested selections
  | .inline _ selections => Selection.placedAll placement selections
  | .spread head => [(.spread head, placement)]

/-- The fields and spreads of some selections that stand at `placement`, in order. -/
def Selection.placedAll (placement : Placement) : List Selection → List Standing
  | [] => []
  | selection :: selections =>
    Selection.placed placement selection ++ Selection.placedAll placement selections

end

/-- The field or spread that is visited, and its placement as it is read off the nodes above. -/
def Visit.placed? : Visit → Option Standing
  | (.field head, above) => some (.field head, Placement.ofAncestors above)
  | (.spread head, above) => some (.spread head, Placement.ofAncestors above)
  | (.operation _, _) | (.variable _, _) | (.fragment _, _) | (.inline _, _) => none

namespace Document

/-- What a walk finds if it notes what `found?` says of each visit. -/
def collect {α : Type} (found? : Visit → Option α) (document : Document) : List α :=
  ((document.walk (.noting found?)).run.run []).2

/-- The fields and spreads of a document with their placements, as a walk finds them. -/
def placements (document : Document) : List Standing := document.collect Visit.placed?

theorem collect_eq_filterMap {α : Type} (found? : Visit → Option α) (document : Document) :
    document.collect found? = document.visits.filterMap found? := by
  rw [collect, run_walk_noting]

end Document

/-! ## From the nodes above, and from the top -/

namespace Selection

mutual

theorem filterMap_placed_visits (above : List Ancestor) (selection : Selection) :
    (selection.visits above).filterMap Visit.placed? =
      selection.placed (Placement.ofAncestors above) := by
  cases selection with
  | field head selections =>
      have noted : Visit.placed? (.field head, above) =
          some (.field head, Placement.ofAncestors above) := rfl
      rw [visits, List.filterMap_cons_some noted, filterMap_placed_visitsAll, placed]
      rfl
  | inline head selections =>
      rw [visits, List.filterMap_cons_none rfl, filterMap_placed_visitsAll, placed]
      rfl
  | spread head => rfl

theorem filterMap_placed_visitsAll (above : List Ancestor) (selections : List Selection) :
    (visitsAll above selections).filterMap Visit.placed? =
      placedAll (Placement.ofAncestors above) selections := by
  cases selections with
  | nil => rfl
  | cons selection selections =>
      rw [visitsAll, List.filterMap_append, filterMap_placed_visits, filterMap_placed_visitsAll,
        placedAll]

end

end Selection

theorem Definition.filterMap_placed_visits (definition : Definition) :
    definition.visits.filterMap Visit.placed? =
      definition.container?.toList.flatMap fun container =>
        Selection.placedAll (.root container) container.selections := by
  cases definition with
  | operation defined =>
      simp [visits, container?, Selection.visitsSet, Selection.filterMap_placed_visitsAll,
        List.filterMap_cons, Placement.ofAncestors, Visit.placed?, Container.selections,
        Function.comp_def]
  | fragment defined =>
      simp [visits, container?, Selection.visitsSet, Selection.filterMap_placed_visitsAll,
        List.filterMap_cons, Placement.ofAncestors, Visit.placed?, Container.selections]
  | typeSystem defined => simp [visits, container?]

/-- A walk finds every field and spread at the place that it has from the top. -/
theorem Document.placements_eq_flatMap (document : Document) :
    document.placements = document.containers.flatMap fun container =>
      Selection.placedAll (.root container) container.selections := by
  rw [placements, collect_eq_filterMap, visits, List.filterMap_flatMap, containers,
    List.filterMap_eq_flatMap_toList, List.flatMap_assoc]
  simp only [Definition.filterMap_placed_visits]

/-! ## Root selections -/

namespace Standing

/-- The definition at whose root a field or a spread is placed, with the field or spread. -/
def root? (found : Standing) : Option (Container × Node) :=
  found.2.container?.map (·, found.1)

open Classical in
/-- The fields and spreads that are placed at the root of a definition. -/
noncomputable def atRoot (container : Container) (found : List Standing) : List Node :=
  (found.filter (·.2 = .root container)).map Prod.fst

end Standing

theorem Visit.bind_root_placed (visit : Visit) :
    visit.placed?.bind Standing.root? = visit.root? := by
  obtain ⟨node, above⟩ := visit
  cases node <;> rfl

namespace Document

open Standing

theorem filterMap_root_placements (document : Document) :
    document.placements.filterMap Standing.root? = document.roots := by
  rw [← filterMap_root_visits, placements, collect_eq_filterMap, List.filterMap_filterMap]
  simp only [Visit.bind_root_placed]

open Classical in
theorem atRoot_eq_filter_root (container : Container) (found : List Standing) :
    atRoot container found =
      ((found.filterMap Standing.root?).filter (·.1 = container)).map Prod.snd := by
  induction found with
  | nil => rfl
  | cons first found ih =>
      obtain ⟨node, placement⟩ := first
      simp only [atRoot] at ih
      cases placement with
      | nested => simpa [atRoot, root?, Placement.container?, List.filterMap_cons] using ih
      | root other =>
          by_cases same : other = container <;>
            simpa [atRoot, root?, Placement.container?, List.filterMap_cons, same] using ih

open Classical in
/-- The root of a definition is found once for each time that the definition is given. -/
theorem atRoot_placements (document : Document) (container : Container) :
    atRoot container document.placements =
      (document.containers.filter (· = container)).flatMap fun _ =>
        Selection.rootsAll container.selections := by
  rw [atRoot_eq_filter_root, filterMap_root_placements, roots]
  induction document.containers with
  | nil => rfl
  | cons other containers ih =>
      by_cases same : other = container
      · subst same
        simp [ih, List.filter_map, Function.comp_def]
      · simp [ih, same, List.filter_map, Function.comp_def]

open Classical in
theorem filter_eq_nil_of_notMem {container : Container} {others : List Container}
    (absent : container ∉ others) : others.filter (· = container) = [] := by
  rw [List.filter_eq_nil_iff]
  intro other member same
  rw [of_decide_eq_true same] at member
  exact absent member

open Classical in
/--
The placements that a walk finds from the nodes above are those from the top. So the fields
and spreads that are placed at the root of a definition are the ones at its root from the
top, in order and as often, and every other field and spread is nested.
-/
theorem placements_from_top (document : Document) :
    document.placements = (document.containers.flatMap fun container =>
        Selection.placedAll (.root container) container.selections) ∧
      (∀ container, atRoot container document.placements =
        (document.containers.filter (· = container)).flatMap fun _ =>
          Selection.rootsAll container.selections) ∧
      (∀ before container after, document.containers = before ++ container :: after →
        container ∉ before → container ∉ after →
          atRoot container document.placements = Selection.rootsAll container.selections) ∧
      ∀ found ∈ document.placements, found.2 = .nested ∨
        ∃ container ∈ document.containers, found.2 = .root container ∧
          found.1 ∈ Selection.rootsAll container.selections := by
  refine ⟨document.placements_eq_flatMap, document.atRoot_placements, ?_, ?_⟩
  · intro before container after split first last
    rw [atRoot_placements, split, List.filter_append, filter_eq_nil_of_notMem first]
    simp [filter_eq_nil_of_notMem last]
  · rintro ⟨node, placement⟩ found
    cases placement with
    | nested => exact Or.inl rfl
    | root container =>
        have root : (container, node) ∈ document.roots := by
          rw [← filterMap_root_placements]
          exact List.mem_filterMap.mpr ⟨_, found, rfl⟩
        exact Or.inr ⟨container, (mem_roots.mp root).1, rfl, (mem_roots.mp root).2⟩

end Document

end PreviewLint
