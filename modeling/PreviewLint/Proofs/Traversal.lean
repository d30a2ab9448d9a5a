import PreviewLint.Proofs.Walk

/-!
# A walk is a fold

A visitor has a state, and every call of it may fail. This file proves that walking a
document with a visitor is folding it over `Document.visits`: the visitor is called for the
visits in order, each call finds the state that the call before it left, and after a call
that fails there is no other. The stack of the walk has no part in this: what is on it at a
call is what stands above the node, and in the end it is as it was.

`Document.visits` is described in two ways that do not depend on each other. Without what
stands above them, the visited nodes are the nodes of the tree in order, each of them once.
And `Document.Occurs` says what stands above a node: the document, the definition, and then
in turn a selection set and the field or inline fragment that was entered in it.
-/

namespace PreviewLint

/-! ## The visited nodes -/

mutual

/-- The nodes of a selection, the selection itself first. -/
def Selection.nodes : Selection → List Node
  | .field head selections => .field head :: Selection.nodesAll selections
  | .inline head selections => .inline head :: Selection.nodesAll selections
  | .spread head => [.spread head]

/-- The nodes of some selections. -/
def Selection.nodesAll : List Selection → List Node
  | [] => []
  | selection :: selections => Selection.nodes selection ++ Selection.nodesAll selections

end

/-- The nodes of a definition: the definition itself, its variables and its selections. -/
def Definition.nodes : Definition → List Node
  | .operation defined =>
    .operation defined :: defined.variableDefinitions.map .variable ++
      Selection.nodesAll defined.selections
  | .fragment defined => .fragment defined :: Selection.nodesAll defined.selections
  | .typeSystem _ => []

/-- The nodes of a document, in the order of its definitions. -/
def Document.nodes (document : Document) : List Node :=
  document.definitions.flatMap Definition.nodes

mutual

theorem Selection.map_fst_visits (above : List Ancestor) (selection : Selection) :
    (selection.visits above).map Prod.fst = selection.nodes := by
  cases selection with
  | field head selections =>
      rw [visits, nodes, List.map_cons, Selection.map_fst_visitsAll]
  | inline head selections =>
      rw [visits, nodes, List.map_cons, Selection.map_fst_visitsAll]
  | spread head => rfl

theorem Selection.map_fst_visitsAll (above : List Ancestor) (selections : List Selection) :
    (Selection.visitsAll above selections).map Prod.fst = Selection.nodesAll selections := by
  cases selections with
  | nil => rfl
  | cons selection selections =>
      rw [visitsAll, nodesAll, List.map_append, Selection.map_fst_visits,
        Selection.map_fst_visitsAll]

end

theorem Definition.map_fst_visits (definition : Definition) :
    definition.visits.map Prod.fst = definition.nodes := by
  cases definition with
  | operation defined =>
      simp [visits, nodes, Selection.visitsSet, Selection.map_fst_visitsAll, Function.comp_def]
  | fragment defined => simp [visits, nodes, Selection.visitsSet, Selection.map_fst_visitsAll]
  | typeSystem defined => rfl

/-- A walk visits every node once, in order. -/
theorem Document.map_fst_visits (document : Document) :
    document.visits.map Prod.fst = document.nodes := by
  simp only [visits, nodes, List.map_flatMap, Definition.map_fst_visits]

/-! ## What stands above a node -/

namespace Document

/-- From the document down to a selection set, and what stands above its selections. -/
inductive Leads (document : Document) : List Ancestor → List Selection → Prop where
  | operation {operation : Operation} (member : operation ∈ document.operations) :
      Leads document [.selectionSet operation.selections, .operation operation, .document]
        operation.selections
  | fragment {fragment : Fragment} (member : fragment ∈ document.fragments) :
      Leads document [.selectionSet fragment.selections, .fragment fragment, .document]
        fragment.selections
  | field {above : List Ancestor} {selections inner : List Selection} {head : Field}
      (outer : Leads document above selections) (member : .field head inner ∈ selections) :
      Leads document (.selectionSet inner :: .field head :: above) inner
  | inline {above : List Ancestor} {selections inner : List Selection} {head : InlineFragment}
      (outer : Leads document above selections) (member : .inline head inner ∈ selections) :
      Leads document (.selectionSet inner :: .inline head :: above) inner

/-- A node of a document, and what stands above it, the nearest first. -/
inductive Occurs (document : Document) : Node → List Ancestor → Prop where
  | operation {operation : Operation} (member : operation ∈ document.operations) :
      Occurs document (.operation operation) [.document]
  | declaration {operation : Operation} {definition : VariableDefinition}
      (member : operation ∈ document.operations)
      (declared : definition ∈ operation.variableDefinitions) :
      Occurs document (.variable definition) [.operation operation, .document]
  | fragment {fragment : Fragment} (member : fragment ∈ document.fragments) :
      Occurs document (.fragment fragment) [.document]
  | field {above : List Ancestor} {selections inner : List Selection} {head : Field}
      (outer : document.Leads above selections) (member : .field head inner ∈ selections) :
      Occurs document (.field head) above
  | inline {above : List Ancestor} {selections inner : List Selection} {head : InlineFragment}
      (outer : document.Leads above selections) (member : .inline head inner ∈ selections) :
      Occurs document (.inline head) above
  | spread {above : List Ancestor} {selections : List Selection} {head : Spread}
      (outer : document.Leads above selections) (member : .spread head ∈ selections) :
      Occurs document (.spread head) above

end Document

namespace Selection

theorem mem_visitsAll {above : List Ancestor} {selections : List Selection} {visit : Visit} :
    visit ∈ visitsAll above selections ↔
      ∃ selection ∈ selections, visit ∈ selection.visits above := by
  induction selections with
  | nil => simp [visitsAll]
  | cons selection selections ih => simp [visitsAll, ih]

variable {document : Document}

mutual

theorem occurs_of_mem_visits {above : List Ancestor} {selections : List Selection}
    (outer : document.Leads above selections) {selection : Selection}
    (member : selection ∈ selections) {visit : Visit} (visited : visit ∈ selection.visits above) :
    document.Occurs visit.1 visit.2 := by
  cases selection with
  | field head inner =>
      rcases List.mem_cons.mp visited with rfl | below
      · exact .field outer member
      · exact occurs_of_mem_visitsAll (outer.field member) (List.Subset.refl inner) below
  | inline head inner =>
      rcases List.mem_cons.mp visited with rfl | below
      · exact .inline outer member
      · exact occurs_of_mem_visitsAll (outer.inline member) (List.Subset.refl inner) below
  | spread head =>
      rw [List.mem_singleton.mp visited]
      exact .spread outer member

theorem occurs_of_mem_visitsAll {above : List Ancestor} {selections : List Selection}
    (outer : document.Leads above selections) {some : List Selection} (part : some ⊆ selections)
    {visit : Visit} (visited : visit ∈ visitsAll above some) :
    document.Occurs visit.1 visit.2 := by
  cases some with
  | nil => cases visited
  | cons selection others =>
      rcases List.cons_subset.mp part with ⟨member, part⟩
      rcases List.mem_append.mp visited with here | later
      · exact occurs_of_mem_visits outer member here
      · exact occurs_of_mem_visitsAll outer part later

end

end Selection

namespace Document

variable {document : Document}

theorem occurs_of_mem_visits {visit : Visit} (visited : visit ∈ document.visits) :
    document.Occurs visit.1 visit.2 := by
  rcases mem_visits.mp visited with ⟨definition, member, visited⟩
  cases definition with
  | operation defined =>
      have present := mem_operations.mpr member
      rcases List.mem_cons.mp visited with rfl | visited
      · exact .operation present
      · rcases List.mem_append.mp visited with declared | below
        · rcases List.mem_map.mp declared with ⟨definition, listed, rfl⟩
          exact .declaration present listed
        · exact Selection.occurs_of_mem_visitsAll (.operation present) (List.Subset.refl _) below
  | fragment defined =>
      have present := mem_fragments.mpr member
      rcases List.mem_cons.mp visited with rfl | below
      · exact .fragment present
      · exact Selection.occurs_of_mem_visitsAll (.fragment present) (List.Subset.refl _) below
  | typeSystem defined => cases visited

/-- Wherever a way leads down the document, the walk goes. -/
theorem Leads.mem_visits {above : List Ancestor} {selections : List Selection}
    (leads : document.Leads above selections) {selection : Selection}
    (member : selection ∈ selections) {visit : Visit} (visited : visit ∈ selection.visits above) :
    visit ∈ document.visits := by
  induction leads generalizing selection with
  | @operation defined present =>
      refine Document.mem_visits.mpr ⟨.operation defined, mem_operations.mp present, ?_⟩
      apply List.mem_cons_of_mem
      apply List.mem_append_right
      exact Selection.mem_visitsAll.mpr ⟨selection, member, visited⟩
  | @fragment defined present =>
      refine Document.mem_visits.mpr ⟨.fragment defined, mem_fragments.mp present, ?_⟩
      apply List.mem_cons_of_mem
      exact Selection.mem_visitsAll.mpr ⟨selection, member, visited⟩
  | field _ entered ih =>
      apply ih entered
      apply List.mem_cons_of_mem
      exact Selection.mem_visitsAll.mpr ⟨selection, member, visited⟩
  | inline _ entered ih =>
      apply ih entered
      apply List.mem_cons_of_mem
      exact Selection.mem_visitsAll.mpr ⟨selection, member, visited⟩

/-- A walk visits exactly the nodes of the document, each with what stands above it. -/
theorem mem_visits_iff_occurs {node : Node} {above : List Ancestor} :
    (node, above) ∈ document.visits ↔ document.Occurs node above := by
  constructor
  · intro visited
    exact occurs_of_mem_visits visited
  · intro occurs
    cases occurs with
    | operation member => exact operation_mem_visits.mpr ⟨member, rfl⟩
    | declaration member declared => exact variable_mem_visits.mpr ⟨_, member, declared, rfl⟩
    | fragment member =>
        exact mem_visits.mpr ⟨_, mem_fragments.mp member, List.mem_cons_self⟩
    | field outer member => exact outer.mem_visits member List.mem_cons_self
    | inline outer member => exact outer.mem_visits member List.mem_cons_self
    | spread outer member => exact outer.mem_visits member List.mem_cons_self

end Document

/-! ## Calls of a visitor -/

section Visitor

variable {σ ε : Type}

namespace Visitor

/-- The outcome of a call, and the state that it leaves. -/
def call (visitor : Visitor σ ε) (visit : Visit) (state : σ) : Except ε Unit × σ :=
  (visitor visit.1 visit.2).run.run state

/-- The next call, which is made unless one before it has failed. -/
def step (visitor : Visitor σ ε) : Except ε Unit × σ → Visit → Except ε Unit × σ
  | (.ok _, state), visit => visitor.call visit state
  | (.error cause, state), _ => (.error cause, state)

/-- The calls for some visits, one after the other. -/
def fold (visitor : Visitor σ ε) (visits : List Visit) (state : σ) : Except ε Unit × σ :=
  visits.foldl visitor.step (.ok (), state)

/-- Walks a document. -/
def walk (visitor : Visitor σ ε) (document : Document) (state : σ) : Except ε Unit × σ :=
  (document.walk visitor).run.run state

/-- A visitor that notes in addition for which visits it is called. -/
def logged (visitor : Visitor σ ε) : Visitor (σ × List Visit) ε := fun node above =>
  ExceptT.mk fun (state, calls) =>
    let (outcome, state) := visitor.call (node, above) state
    (outcome, state, calls ++ [(node, above)])

variable (visitor : Visitor σ ε)

theorem foldl_step_error (visits : List Visit) (cause : ε) (state : σ) :
    visits.foldl visitor.step (.error cause, state) = (.error cause, state) := by
  induction visits with
  | nil => rfl
  | cons visit visits ih => exact ih

theorem fold_cons_of_ok {visit : Visit} {state middle : σ}
    (called : visitor.call visit state = (.ok (), middle)) (visits : List Visit) :
    visitor.fold (visit :: visits) state = visitor.fold visits middle := by
  rw [fold, List.foldl_cons, step, called, fold]

theorem fold_cons_of_error {visit : Visit} {state final : σ} {cause : ε}
    (called : visitor.call visit state = (.error cause, final)) (visits : List Visit) :
    visitor.fold (visit :: visits) state = (.error cause, final) := by
  rw [fold, List.foldl_cons, step, called, foldl_step_error]

theorem run_forM_eq_fold (visits : List Visit) (state : σ) :
    (forM visits fun (node, above) => visitor node above).run.run state =
      visitor.fold visits state := by
  induction visits generalizing state with
  | nil => rfl
  | cons visit visits ih =>
      rw [List.forM_cons, ExceptT.run_bind, StateT.run_bind]
      change bind (m := Id) (visitor.call visit state) _ = _
      cases called : visitor.call visit state with
      | mk outcome middle =>
          cases outcome with
          | ok _ =>
              rw [visitor.fold_cons_of_ok called, ← ih middle]
              rfl
          | error cause =>
              rw [visitor.fold_cons_of_error called]
              rfl

theorem walk_eq_fold_visits (document : Document) (state : σ) :
    visitor.walk document state = visitor.fold document.visits state := by
  rw [walk, Document.walk_eq_forM_visits, run_forM_eq_fold]

/-- How the calls for some visits come to an end, and for which visits they were made. -/
inductive Course (visitor : Visitor σ ε) (visits : List Visit) (state : σ) :
    Except ε Unit × σ → List Visit → Prop where
  /-- Every call went well. -/
  | completed {final : σ} (ran : visitor.fold visits state = (.ok (), final)) :
      Course visitor visits state (.ok (), final) visits
  /-- A call failed after others that went well. It was the last one. -/
  | stopped {before after : List Visit} {visit : Visit} {middle final : σ} {cause : ε}
      (split : visits = before ++ visit :: after)
      (ran : visitor.fold before state = (.ok (), middle))
      (failed : visitor.call visit middle = (.error cause, final)) :
      Course visitor visits state (.error cause, final) (before ++ [visit])

variable {visitor} in
theorem Course.cons {visit : Visit} {visits called : List Visit} {state middle : σ}
    {result : Except ε Unit × σ} (ok : visitor.call visit state = (.ok (), middle))
    (course : visitor.Course visits middle result called) :
    visitor.Course (visit :: visits) state result (visit :: called) := by
  cases course with
  | completed ran => exact .completed ((visitor.fold_cons_of_ok ok visits).trans ran)
  | @stopped before after _ _ _ _ split ran failed =>
      have longer : visit :: visits = (visit :: before) ++ _ :: after := congrArg (visit :: ·) split
      rw [← List.cons_append]
      exact .stopped longer ((visitor.fold_cons_of_ok ok before).trans ran) failed

theorem call_logged (visit : Visit) (state : σ) (calls : List Visit) :
    visitor.logged.call visit (state, calls) =
      ((visitor.call visit state).1, (visitor.call visit state).2, calls ++ [visit]) := rfl

/-- The log changes nothing but the log, which gets the visits for which calls were made. -/
theorem exists_course (visits : List Visit) (state : σ) (calls : List Visit) :
    ∃ called, visitor.logged.fold visits (state, calls) =
        ((visitor.fold visits state).1, (visitor.fold visits state).2, calls ++ called) ∧
      visitor.Course visits state (visitor.fold visits state) called := by
  induction visits generalizing state calls with
  | nil => exact ⟨[], by rw [List.append_nil]; rfl, .completed rfl⟩
  | cons visit visits ih =>
      have log := visitor.call_logged visit state calls
      cases called : visitor.call visit state with
      | mk outcome middle =>
          rw [called] at log
          cases outcome with
          | ok _ =>
              rcases ih middle (calls ++ [visit]) with ⟨later, ran, course⟩
              refine ⟨visit :: later, ?_, ?_⟩
              · rw [visitor.logged.fold_cons_of_ok log, visitor.fold_cons_of_ok called, ran,
                  List.append_assoc, List.singleton_append]
              · rw [visitor.fold_cons_of_ok called]
                exact course.cons called
          | error cause =>
              refine ⟨[visit], ?_, ?_⟩
              · rw [visitor.logged.fold_cons_of_error log, visitor.fold_cons_of_error called]
              · rw [visitor.fold_cons_of_error called]
                have first : visit :: visits = [] ++ visit :: visits := rfl
                exact .stopped first rfl called

/--
Walking is folding over the visits. These are the nodes of the document in order, each once
and with exactly what stands above it. The first call that fails ends the walk with its cause
and with the state that it left, and no visit after it is logged. The stack of the walk is the
same before and after every selection, whatever is on it and also if a call below fails, and so
it is before and after the whole walk.
-/
theorem walk_eq_fold (visitor : Visitor σ ε) (document : Document) (state : σ) :
    visitor.walk document state = document.visits.foldl visitor.step (.ok (), state) ∧
      document.visits.map Prod.fst = document.nodes ∧
      (∀ node above, (node, above) ∈ document.visits ↔ document.Occurs node above) ∧
      (∃ called, visitor.logged.walk document (state, []) =
          ((visitor.walk document state).1, (visitor.walk document state).2, called) ∧
        visitor.Course document.visits state (visitor.walk document state) called) ∧
      (∀ ancestors selection, Walker.Mirrors (Walker.selection visitor selection) ancestors
        (selection.descend visitor ancestors.toList.reverse)) ∧
      (Walker.document visitor document).run.run ⟨state, #[.document]⟩ =
        ((visitor.walk document state).1, ⟨(visitor.walk document state).2, #[.document]⟩) := by
  refine ⟨visitor.walk_eq_fold_visits document state, document.map_fst_visits,
    fun _ _ => Document.mem_visits_iff_occurs, ?_, Walker.mirrors_selection visitor, ?_⟩
  · rw [walk_eq_fold_visits, walk_eq_fold_visits]
    exact visitor.exists_course document.visits state []
  · rw [walk, Document.walk_eq_descend]
    exact Walker.mirrors_document visitor document state

end Visitor

end Visitor

end PreviewLint
