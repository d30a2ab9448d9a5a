import PreviewLint.Document.Basic

/-!
# Walking a document

A walk visits every operation, variable definition, fragment, field, inline
fragment and spread of a document once: definitions in order, the variables of an
operation before its selections, and a node before what is below it. With each
node it hands out what stands above the node, the nearest first.

What stands above is kept on one stack for the whole walk. It is pushed to and
popped from as the walk goes down and up, and an error of the visitor ends the walk
at whatever depth it is.

Type-system definitions are not visited.
-/

namespace PreviewLint

/-- What can stand above a node. -/
inductive Ancestor where
  | document
  | operation (operation : Operation)
  | fragment (fragment : Fragment)
  | selectionSet (selections : List Selection)
  | field (field : Field)
  | inline (fragment : InlineFragment)

inductive Node where
  | operation (operation : Operation)
  | variable (definition : VariableDefinition)
  | fragment (fragment : Fragment)
  | field (field : Field)
  | inline (fragment : InlineFragment)
  | spread (spread : Spread)

/--
What is done at a node of any kind, given what stands above it, the nearest first. It may change
the state of the visitor, and it may stop the walk with an error.
-/
abbrev Visitor (σ ε : Type) := Node → List Ancestor → ExceptT ε (StateM σ) Unit

/-- A walk on its way: the state of the visitor, and what stands above, the document first. -/
structure Walker (σ : Type) where
  visitor : σ
  ancestors : Array Ancestor

namespace Walker

variable {σ ε : Type}

/-- A part of a walk, which is cut short by an error of the visitor. -/
abbrev Walking (σ ε : Type) := ExceptT ε (StateM (Walker σ))

def push (ancestor : Ancestor) : StateM (Walker σ) Unit :=
  modify fun walker => { walker with ancestors := walker.ancestors.push ancestor }

def pop : StateM (Walker σ) Unit :=
  modify fun walker => { walker with ancestors := walker.ancestors.pop }

/-- Walks below a node. The node is taken from the ancestors again also after an error. -/
def below (ancestor : Ancestor) (walk : Walking σ ε Unit) : Walking σ ε Unit :=
  ExceptT.mk do
    push ancestor
    let result ← walk.run
    pop
    return result

variable (visit : Visitor σ ε)

/-- Visits a node below the ancestors of the moment. -/
def enter (node : Node) : Walking σ ε Unit :=
  ExceptT.mk fun walker =>
    let above := walker.ancestors.toList.reverse
    let (result, visitor) := (visit node above).run.run walker.visitor
    (result, { walker with visitor })

mutual

def selection : Selection → Walking σ ε Unit
  | .field head selections => do
    enter visit (.field head)
    below (.field head) (below (.selectionSet selections) (selectionsIn selections))
  | .inline head selections => do
    enter visit (.inline head)
    below (.inline head) (below (.selectionSet selections) (selectionsIn selections))
  | .spread head => enter visit (.spread head)

/-- Walks the selections of a set, until one of them fails. -/
def selectionsIn : List Selection → Walking σ ε Unit
  | [] => pure ()
  | first :: rest => do
    selection first
    selectionsIn rest

end

/-- Walks the selection set of a definition. -/
def selectionSet (selections : List Selection) : Walking σ ε Unit :=
  below (.selectionSet selections) (selectionsIn visit selections)

def definition : Definition → Walking σ ε Unit
  | .operation defined => do
    enter visit (.operation defined)
    below (.operation defined) do
      defined.variableDefinitions.forM fun entry => enter visit (.variable entry)
      selectionSet visit defined.selections
  | .fragment defined => do
    enter visit (.fragment defined)
    below (.fragment defined) (selectionSet visit defined.selections)
  | .typeSystem _ => pure ()

/-- Walks the definitions of a document, until one of them fails. -/
def document (walked : Document) : Walking σ ε Unit := walked.definitions.forM (definition visit)

end Walker

/-- Walks a document, with nothing but the document above its definitions. -/
def Document.walk {σ ε : Type} (document : Document) (visit : Visitor σ ε) :
    ExceptT ε (StateM σ) Unit :=
  ExceptT.mk fun visitor =>
    let (result, walker) := (Walker.document visit document).run.run ⟨visitor, #[.document]⟩
    (result, walker.visitor)

end PreviewLint
