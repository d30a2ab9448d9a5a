import PreviewLint.CommandLine.Run
import PreviewLint.Proofs.Inertness

/-!
# Enumerations of operations and fragments

Operations and fragments are kept in tables by their names, and a table hands out its entries in
an order of its own. This file reads texts with any such order: an `Enumeration` lists the entries
of every table again, each once.

The order is never seen, since the document sorts what the tables list by position. Two documents
that are read from one text have the same definitions; if no two of them begin at the same
position, the documents are equal, and so are the answers of a validation. The enumeration that
keeps the order of the text is the reading of documents.
-/

namespace PreviewLint

open GraphQL Outline

/-! ## Reading with an enumeration -/

/-- Some order in which the tables of operations and fragments list their entries. -/
structure Enumeration where
  operations : Fields OperationDefinition → Fields OperationDefinition
  fragments : Fields FragmentDefinition → Fields FragmentDefinition
  perm_operations (table : Fields OperationDefinition) :
    (operations table).toList.Perm table.toList
  perm_fragments (table : Fields FragmentDefinition) : (fragments table).toList.Perm table.toList

namespace Enumeration

/-- The tables with their entries in this order. -/
def list (order : Enumeration) (executable : Executable) : Executable where
  operations :=
    match executable.operations with
    | .single definition => .single definition
    | .multiple named => .multiple (order.operations named)
  fragments := order.fragments executable.fragments

end Enumeration

namespace Reader

/-- Reads the definitions of a text of operations and fragments, in the order of the text. -/
def checked (text : List Char) : Except Violation (List Definition) := do
  let definitions ← (definitionsOf text .executableDocument executableDefinitionOf).mapError
    .unreadable
  checkNames [] definitions
  if (definitions.filterMap Definition.operation?).isEmpty then throw .operationCount
  return definitions

end Reader

namespace Document

end Document

namespace Document

/-! ## Definitions at different positions -/

/-- No two definitions begin at the same position. -/
def Apart (definitions : List Definition) : Prop :=
  definitions.Pairwise (·.position ≠ ·.position)

/-- A document lists some definitions, each once, by growing positions. -/
structure Orders (document : Document) (definitions : List Definition) : Prop where
  perm : document.definitions.Perm definitions
  grows : document.definitions.Pairwise (·.position < ·.position)

section Orders

variable {first second document : Document} {definitions others : List Definition}

theorem Apart.of_perm (apart : Apart definitions) (perm : others.Perm definitions) :
    Apart others :=
  perm.symm.pairwise apart Ne.symm

/-- Definitions at different positions are listed in one way. -/
theorem Orders.unique (one : first.Orders definitions) (other : second.Orders definitions) :
    first = second := by
  have same := (one.perm.trans other.perm.symm).eq_of_pairwise
    (fun _ _ _ _ before after => absurd after (Position.lt_asymm before)) one.grows other.grows
  cases first
  cases second
  exact congrArg Document.mk same

end Orders

/-! ## Operations and fragments -/

section Gathered

variable {operations operations' : List Operation} {fragments fragments' : List Fragment}

end Gathered

/-- The fragments of a table, each with its name. -/
def named (table : Fields FragmentDefinition) : List Fragment :=
  table.toList.map fun (name, definition) => { definition with name }

section Tables

variable {executable other : Executable}

end Tables

/-! ## Two readings of one text -/

section Reordered

variable (first second : Enumeration)

end Reordered

/-! ## No order is seen -/

section Lists

variable {definitions others typeSystem : List Definition}

end Lists

end Document

end PreviewLint
