import PreviewLint.Document.Walk

/-!
# The stack of a walk

A walk keeps what stands above a node on one stack. This file compares it with a walk that has
no stack: `Document.descend` hands what stands above a node down as an argument.

Each part of a walk mirrors the same part of the descent. It does to the visitor what the descent
does, and it leaves the stack as it found it, at whatever depth the visitor fails. The two are
therefore one for every visitor.
-/

namespace PreviewLint

/-! ## The descent -/

section Descend

variable {m : Type → Type} [Monad m] (visit : Node → List Ancestor → m Unit)

mutual

/-- Goes down one selection; `above` is what stands above it, the nearest first. -/
def Selection.descend (above : List Ancestor) : Selection → m Unit
  | .field head selections => do
    visit (.field head) above
    Selection.descendAll (.selectionSet selections :: .field head :: above) selections
  | .inline head selections => do
    visit (.inline head) above
    Selection.descendAll (.selectionSet selections :: .inline head :: above) selections
  | .spread head => visit (.spread head) above

/-- Goes down some selections, one after the other. -/
def Selection.descendAll (above : List Ancestor) : List Selection → m Unit
  | [] => pure ()
  | selection :: selections => do
    Selection.descend above selection
    Selection.descendAll above selections

end

/-- Goes down the selection set of a definition. -/
def Selection.descendSet (above : List Ancestor) (selections : List Selection) : m Unit :=
  Selection.descendAll visit (.selectionSet selections :: above) selections

/-- Goes down one definition. -/
def Definition.descend : Definition → m Unit
  | .operation defined => do
    visit (.operation defined) [.document]
    defined.variableDefinitions.forM fun definition =>
      visit (.variable definition) [.operation defined, .document]
    Selection.descendSet visit [.operation defined, .document] defined.selections
  | .fragment defined => do
    visit (.fragment defined) [.document]
    Selection.descendSet visit [.fragment defined, .document] defined.selections
  | .typeSystem _ => pure ()

/-- Goes down a document. The descent ends early if `visit` ends it in its monad. -/
def Document.descend (document : Document) : m Unit :=
  document.definitions.forM (Definition.descend visit)

end Descend

/-! ## One stack -/

namespace Walker

variable {σ ε : Type}

/--
A part of a walk that finds `ancestors` on the stack does to the visitor what `action` does, and
leaves the same on the stack, whether it ends well or with an error.
-/
def Mirrors (walk : Walking σ ε Unit) (ancestors : Array Ancestor)
    (action : ExceptT ε (StateM σ) Unit) : Prop :=
  ∀ visitor, walk.run.run ⟨visitor, ancestors⟩ =
    ((action.run.run visitor).1, ⟨(action.run.run visitor).2, ancestors⟩)

section Mirrors

variable {ancestors : Array Ancestor}

theorem mirrors_pure : Mirrors (pure () : Walking σ ε Unit) ancestors (pure ()) :=
  fun _ => rfl

/-- An error of the first part ends both. -/
theorem Mirrors.seq {first second : Walking σ ε Unit} {one other : ExceptT ε (StateM σ) Unit}
    (here : Mirrors first ancestors one) (later : Mirrors second ancestors other) :
    Mirrors (do first; second) ancestors (do one; other) := by
  intro visitor
  rw [ExceptT.run_bind, ExceptT.run_bind, StateT.run_bind, StateT.run_bind, here visitor]
  cases ran : one.run.run visitor with
  | mk result next =>
      cases result with
      | ok _ => exact later next
      | error cause => rfl

theorem mirrors_enter (visit : Visitor σ ε) (node : Node) :
    Mirrors (enter visit node) ancestors (visit node ancestors.toList.reverse) :=
  fun _ => rfl

/-- What is pushed before a part of a walk is popped after it. -/
theorem Mirrors.below {walk : Walking σ ε Unit} {action : ExceptT ε (StateM σ) Unit}
    {ancestor : Ancestor} (inside : Mirrors walk (ancestors.push ancestor) action) :
    Mirrors (below ancestor walk) ancestors action := by
  intro visitor
  calc (Walker.below ancestor walk).run.run ⟨visitor, ancestors⟩
    _ = ((walk.run.run ⟨visitor, ancestors.push ancestor⟩).1,
          { (walk.run.run ⟨visitor, ancestors.push ancestor⟩).2 with
            ancestors := (walk.run.run ⟨visitor, ancestors.push ancestor⟩).2.ancestors.pop }) := rfl
    _ = ((action.run.run visitor).1, ⟨(action.run.run visitor).2, ancestors⟩) := by
        rw [inside visitor, Array.pop_push]

theorem Mirrors.forM {α : Type} {walk : α → Walking σ ε Unit}
    {action : α → ExceptT ε (StateM σ) Unit}
    (each : ∀ entry, Mirrors (walk entry) ancestors (action entry)) (entries : List α) :
    Mirrors (entries.forM walk) ancestors (entries.forM action) := by
  induction entries with
  | nil => exact mirrors_pure
  | cons entry entries ih => exact (each entry).seq ih

end Mirrors

theorem reverse_toList_push (ancestors : Array Ancestor) (ancestor : Ancestor) :
    (ancestors.push ancestor).toList.reverse = ancestor :: ancestors.toList.reverse := by
  rw [Array.toList_push, List.reverse_concat]

variable (visit : Visitor σ ε)

mutual

theorem mirrors_selection (ancestors : Array Ancestor) (walked : Selection) :
    Mirrors (selection visit walked) ancestors
      (walked.descend visit ancestors.toList.reverse) := by
  cases walked with
  | field head selections =>
      have inside := mirrors_selectionsIn
        ((ancestors.push (.field head)).push (.selectionSet selections)) selections
      rw [reverse_toList_push, reverse_toList_push] at inside
      rw [selection, Selection.descend]
      exact (mirrors_enter visit _).seq inside.below.below
  | inline head selections =>
      have inside := mirrors_selectionsIn
        ((ancestors.push (.inline head)).push (.selectionSet selections)) selections
      rw [reverse_toList_push, reverse_toList_push] at inside
      rw [selection, Selection.descend]
      exact (mirrors_enter visit _).seq inside.below.below
  | spread head =>
      rw [selection, Selection.descend]
      exact mirrors_enter visit _

theorem mirrors_selectionsIn (ancestors : Array Ancestor) (walked : List Selection) :
    Mirrors (selectionsIn visit walked) ancestors
      (Selection.descendAll visit ancestors.toList.reverse walked) := by
  cases walked with
  | nil =>
      rw [selectionsIn, Selection.descendAll]
      exact mirrors_pure
  | cons first rest =>
      rw [selectionsIn, Selection.descendAll]
      exact (mirrors_selection ancestors first).seq (mirrors_selectionsIn ancestors rest)

end

theorem mirrors_selectionSet (ancestors : Array Ancestor) (selections : List Selection) :
    Mirrors (selectionSet visit selections) ancestors
      (Selection.descendSet visit ancestors.toList.reverse selections) := by
  have inside := mirrors_selectionsIn visit (ancestors.push (.selectionSet selections)) selections
  rw [reverse_toList_push] at inside
  exact inside.below

theorem mirrors_definition (walked : Definition) :
    Mirrors (definition visit walked) #[.document] (walked.descend visit) := by
  cases walked with
  | operation defined =>
      have entries : Mirrors
          (defined.variableDefinitions.forM fun entry => enter visit (.variable entry))
          #[.document, .operation defined]
          (defined.variableDefinitions.forM fun entry =>
            visit (.variable entry) [.operation defined, .document]) :=
        .forM (fun entry => mirrors_enter visit (.variable entry)) _
      have selections := mirrors_selectionSet visit #[.document, .operation defined]
        defined.selections
      exact (mirrors_enter visit _).seq (entries.seq selections).below
  | fragment defined =>
      have selections := mirrors_selectionSet visit #[.document, .fragment defined]
        defined.selections
      exact (mirrors_enter visit _).seq selections.below
  | typeSystem defined => exact mirrors_pure

/-- A whole walk leaves the document on the stack, with which it began. -/
theorem mirrors_document (walked : Document) :
    Mirrors (document visit walked) #[.document] (walked.descend visit) :=
  Mirrors.forM (mirrors_definition visit) walked.definitions

end Walker

/-- A walk with one stack does what a descent does that hands its place down. -/
theorem Document.walk_eq_descend {σ ε : Type} (document : Document) (visit : Visitor σ ε) :
    document.walk visit = document.descend visit := by
  have mirrors := Walker.mirrors_document visit document
  funext visitor
  calc (document.walk visit).run.run visitor
    _ = (((Walker.document visit document).run.run ⟨visitor, #[.document]⟩).1,
          ((Walker.document visit document).run.run ⟨visitor, #[.document]⟩).2.visitor) := rfl
    _ = (document.descend visit).run.run visitor := by
        rw [mirrors visitor]
        rfl

end PreviewLint
