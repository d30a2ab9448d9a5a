import Mathlib.Algebra.Order.Ring.Nat
import Mathlib.Data.List.Basic
import PreviewLint.Proofs.Traversal

/-!
# All usages of all fragments

An index is asked for the usages of fragments one after the other, and remembers what it has
found. This file proves that it always gives the usages that are in the document. They are
listed by `Document.usages` in one recursion on the tree that knows neither names to look for
nor walks: every spread, wherever it stands, with the whole way from the document down to it.

The answer for a name is the part of that list with this name, whatever was asked before. Each
spread is thus in the answer for its own name and in no other, so that the answers for distinct
names, if these cover the document, have as many usages as the document has spreads.
-/

namespace PreviewLint

/-! ## The spreads of a document -/

mutual

/-- The spreads of a selection, at any depth. -/
def Selection.spreads : Selection → List Spread
  | .field _ selections => Selection.spreadsAll selections
  | .inline _ selections => Selection.spreadsAll selections
  | .spread head => [head]

/-- The spreads of some selections, at any depth. -/
def Selection.spreadsAll : List Selection → List Spread
  | [] => []
  | selection :: selections => Selection.spreads selection ++ Selection.spreadsAll selections

end

mutual

/-- The spreads of a selection with what stands above them; `above` stands above the selection. -/
def Selection.usages (above : List Ancestor) : Selection → List Usage
  | .field head selections =>
    Selection.usagesAll (.selectionSet selections :: .field head :: above) selections
  | .inline head selections =>
    Selection.usagesAll (.selectionSet selections :: .inline head :: above) selections
  | .spread head => [⟨head, above⟩]

/-- The spreads of some selections with what stands above them. -/
def Selection.usagesAll (above : List Ancestor) : List Selection → List Usage
  | [] => []
  | selection :: selections =>
    Selection.usages above selection ++ Selection.usagesAll above selections

end

namespace Definition

/-- The spreads of a definition, at any depth. -/
def spreads : Definition → List Spread
  | operation defined => Selection.spreadsAll defined.selections
  | fragment defined => Selection.spreadsAll defined.selections
  | typeSystem _ => []

/-- The spreads of a definition with what stands above them. -/
def usages : Definition → List Usage
  | operation defined =>
    Selection.usagesAll [.selectionSet defined.selections, .operation defined, .document]
      defined.selections
  | fragment defined =>
    Selection.usagesAll [.selectionSet defined.selections, .fragment defined, .document]
      defined.selections
  | typeSystem _ => []

end Definition

namespace Document

/-- The spreads of a document, in order. -/
def spreads (document : Document) : List Spread :=
  document.definitions.flatMap Definition.spreads

/-- The spreads of a document with what stands above them, in order. -/
def usages (document : Document) : List Usage :=
  document.definitions.flatMap Definition.usages

end Document

namespace Selection

mutual

theorem map_spread_usages (above : List Ancestor) (selection : Selection) :
    (selection.usages above).map Usage.spread = selection.spreads := by
  cases selection with
  | field head selections => rw [usages, spreads, map_spread_usagesAll]
  | inline head selections => rw [usages, spreads, map_spread_usagesAll]
  | spread head => rfl

theorem map_spread_usagesAll (above : List Ancestor) (selections : List Selection) :
    (usagesAll above selections).map Usage.spread = spreadsAll selections := by
  cases selections with
  | nil => rfl
  | cons selection selections =>
      rw [usagesAll, spreadsAll, List.map_append, map_spread_usages, map_spread_usagesAll]

end

end Selection

theorem Definition.map_spread_usages (definition : Definition) :
    definition.usages.map Usage.spread = definition.spreads := by
  cases definition with
  | operation defined => exact Selection.map_spread_usagesAll _ defined.selections
  | fragment defined => exact Selection.map_spread_usagesAll _ defined.selections
  | typeSystem defined => rfl

/-- There is one usage for each spread. -/
theorem Document.map_spread_usages (document : Document) :
    document.usages.map Usage.spread = document.spreads := by
  simp only [usages, spreads, List.map_flatMap, Definition.map_spread_usages]

/-! ## The usages that a walk meets -/

/-- The usage of some fragment that a visit finds, if it finds one. -/
def Visit.anyUsage? : Visit → Option Usage
  | (.spread spread, above) => some ⟨spread, above⟩
  | (.operation _, _) | (.variable _, _) | (.fragment _, _) | (.field _, _) | (.inline _, _) => none

namespace Selection

mutual

theorem filterMap_anyUsage_visits (above : List Ancestor) (selection : Selection) :
    (selection.visits above).filterMap Visit.anyUsage? = selection.usages above := by
  cases selection with
  | field head selections =>
      rw [visits, List.filterMap_cons_none rfl, filterMap_anyUsage_visitsAll, usages]
  | inline head selections =>
      rw [visits, List.filterMap_cons_none rfl, filterMap_anyUsage_visitsAll, usages]
  | spread head => rfl

theorem filterMap_anyUsage_visitsAll (above : List Ancestor) (selections : List Selection) :
    (visitsAll above selections).filterMap Visit.anyUsage? = usagesAll above selections := by
  cases selections with
  | nil => rfl
  | cons selection selections =>
      rw [visitsAll, List.filterMap_append, filterMap_anyUsage_visits,
        filterMap_anyUsage_visitsAll, usagesAll]

end

end Selection

theorem Definition.filterMap_anyUsage_visits (definition : Definition) :
    definition.visits.filterMap Visit.anyUsage? = definition.usages := by
  cases definition with
  | operation defined =>
      have none : (defined.variableDefinitions.map fun definition =>
          ((.variable definition, [.operation defined, .document]) : Visit)).filterMap
            Visit.anyUsage? = [] := by
        simp [Visit.anyUsage?]
      rw [visits, List.cons_append, List.filterMap_cons_none rfl, List.filterMap_append, none]
      exact Selection.filterMap_anyUsage_visitsAll _ defined.selections
  | fragment defined =>
      rw [visits, List.filterMap_cons_none rfl]
      exact Selection.filterMap_anyUsage_visitsAll _ defined.selections
  | typeSystem defined => rfl

theorem Visit.usage?_eq_filter (name : String) (visit : Visit) :
    visit.usage? name = visit.anyUsage?.filter (·.spread.name = name) := by
  obtain ⟨node, above⟩ := visit
  cases node with
  | spread spread => simp [usage?, anyUsage?, Option.filter]
  | operation | fragment | field | inline => rfl
  | _ => rfl

namespace Document

theorem filterMap_anyUsage_visits (document : Document) :
    document.visits.filterMap Visit.anyUsage? = document.usages := by
  simp only [visits, usages, List.filterMap_flatMap, Definition.filterMap_anyUsage_visits]

/-- A usage is a spread of the document with what stands above it. -/
theorem mem_usages_iff_occurs {document : Document} {usage : Usage} :
    usage ∈ document.usages ↔ document.Occurs (.spread usage.spread) usage.ancestors := by
  rw [← filterMap_anyUsage_visits, ← mem_visits_iff_occurs, List.mem_filterMap]
  constructor
  · rintro ⟨⟨node, above⟩, visited, found⟩
    cases node with
    | spread spread =>
        cases found
        exact visited
    | operation | fragment | field | inline => cases found
    | _ => cases found
  · intro visited
    exact ⟨_, visited, rfl⟩

/-- A walk that looks for a name finds all usages with this name. -/
theorem usagesOf_eq_filter (document : Document) (name : String) :
    document.usagesOf name = document.usages.filter (·.spread.name = name) := by
  rw [usagesOf_eq_filterMap, ← filterMap_anyUsage_visits, List.filter_filterMap]
  simp only [Visit.usage?_eq_filter]

end Document

/-! ## Asking an index -/

namespace UsageIndex

/-- What an index gives for some names, one after the other, and what it is after that. -/
def ask (index : UsageIndex) : List String → List (List Usage) × UsageIndex
  | [] => ([], index)
  | name :: names =>
    let (usages, next) := index.usagesOf name
    let (others, last) := next.ask names
    (usages :: others, last)

/-- Whatever an index is asked for, its answers are right and it stays consistent. -/
theorem Consistent.ask {document : Document} {index : UsageIndex}
    (consistent : Consistent document index) (names : List String) :
    (index.ask names).1 = names.map document.usagesOf ∧
      Consistent document (index.ask names).2 := by
  induction names generalizing index with
  | nil => exact ⟨rfl, consistent⟩
  | cons name names ih =>
      rcases ih (consistent.usagesOf name) with ⟨others, last⟩
      refine ⟨?_, last⟩
      rw [List.map_cons, ← others, ← consistent.usagesOf_eq name]
      rfl

/-- Each usage is counted for its own name, and for no other. -/
theorem sum_length_filter {names : List String} (distinct : names.Nodup) {usages : List Usage}
    (covered : ∀ usage ∈ usages, usage.spread.name ∈ names) :
    (names.map fun name => (usages.filter (·.spread.name = name)).length).sum = usages.length := by
  induction names generalizing usages with
  | nil =>
      cases usages with
      | nil => rfl
      | cons usage usages => cases covered usage List.mem_cons_self
  | cons name names ih =>
      rcases List.nodup_cons.mp distinct with ⟨absent, distinct⟩
      -- The other names find all that `name` does not find, and find it also without the rest.
      have others : ∀ usage ∈ usages.filter fun usage => !decide (usage.spread.name = name),
          usage.spread.name ∈ names := by
        intro usage member
        rcases List.mem_filter.mp member with ⟨member, differs⟩
        rcases List.mem_cons.mp (covered usage member) with same | later
        · simp [same] at differs
        · exact later
      have unchanged : ∀ other ∈ names,
          (usages.filter fun usage => !decide (usage.spread.name = name)).filter
              (·.spread.name = other) =
            usages.filter (·.spread.name = other) := by
        intro other member
        rw [List.filter_filter]
        apply List.filter_congr
        intro usage _
        by_cases same : usage.spread.name = other
        · have differs : other ≠ name := by
            rintro rfl
            exact absent member
          simp [same, differs]
        · simp [same]
      have rest := ih distinct others
      rw [List.map_congr_left fun other member => congrArg List.length (unchanged other member)]
        at rest
      rw [List.map_cons, List.sum_cons, rest]
      exact (List.length_eq_length_filter_add _).symm

/--
An index that is asked for some names gives for each of them the usages with this name, in
order. There is one usage for each spread of the document, with exactly what stands above it.
So if distinct names cover all spreads, the answers for them together are as long as there are
spreads, whatever was asked before.
-/
theorem ask_complete (document : Document) (asked : List String) :
    ((ofDocument document).ask asked).1 =
        asked.map (fun name => document.usages.filter (·.spread.name = name)) ∧
      document.usages.map Usage.spread = document.spreads ∧
      (∀ usage, usage ∈ document.usages ↔
        document.Occurs (.spread usage.spread) usage.ancestors) ∧
      ∀ names : List String, names.Nodup → document.spreads.map Spread.name ⊆ names →
        ((((ofDocument document).ask asked).2.ask names).1.map List.length).sum =
          document.spreads.length := by
  rcases (consistent_ofDocument document).ask asked with ⟨answers, consistent⟩
  refine ⟨?_, document.map_spread_usages, fun _ => Document.mem_usages_iff_occurs, ?_⟩
  · rw [answers]
    exact List.map_congr_left fun name _ => document.usagesOf_eq_filter name
  · intro names distinct covers
    have covered : ∀ usage ∈ document.usages, usage.spread.name ∈ names := by
      intro usage member
      apply covers
      rw [← document.map_spread_usages, List.map_map]
      exact List.mem_map.mpr ⟨usage, member, rfl⟩
    rw [(consistent.ask names).1, List.map_map, ← document.map_spread_usages, List.length_map,
      ← sum_length_filter distinct covered]
    simp only [Function.comp_def, Document.usagesOf_eq_filter]

/-- The document `{ ...F a { ...F ... { ...G } } } fragment F on T { b { ...F } }`. -/
def nestedSpreads : Document :=
  ⟨[.operation ⟨⟨⟨1, 1⟩, .query, [], [],
      [.spread ⟨⟨1, 3⟩, "F", []⟩,
        .field ⟨⟨1, 8⟩, none, "a", [], []⟩
          [.spread ⟨⟨1, 12⟩, "F", []⟩,
            .inline ⟨⟨1, 17⟩, none, []⟩ [.spread ⟨⟨1, 23⟩, "G", []⟩]]]⟩, none⟩,
    .fragment ⟨⟨⟨1, 34⟩, "T", [],
      [.field ⟨⟨1, 52⟩, none, "b", [], []⟩ [.spread ⟨⟨1, 56⟩, "F", []⟩]]⟩, "F"⟩]⟩

/-- `F` is spread three times and `G` once, also after `F` and an unknown name were asked for. -/
theorem nestedSpreads_asked :
    ["H", "G", "F"].Nodup ∧ nestedSpreads.spreads.map Spread.name ⊆ ["H", "G", "F"] ∧
      ((ofDocument nestedSpreads).ask ["F", "X", "F"]).1.map (·.map (·.ancestors.length)) =
        [[3, 5, 5], [], [3, 5, 5]] ∧
      ((((ofDocument nestedSpreads).ask ["F", "X", "F"]).2.ask ["H", "G", "F"]).1.map
        List.length).sum = 4 := by
  have distinct : ["H", "G", "F"].Nodup := by decide
  have covers : nestedSpreads.spreads.map Spread.name ⊆ ["H", "G", "F"] := by decide
  rcases ask_complete nestedSpreads ["F", "X", "F"] with ⟨answers, _, _, total⟩
  refine ⟨distinct, covers, ?_, total ["H", "G", "F"] distinct covers⟩
  rw [answers]
  decide

end UsageIndex

end PreviewLint
