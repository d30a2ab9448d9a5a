import PreviewLint.Document.Walk

/-!
# Root and nested places

A field or a spread stands at the root of a definition if no field stands between
the two. Inline fragments in between do not matter. The placement is read off the
nodes above, the nearest first: selection sets and inline fragments are passed,
and what comes next has to be a definition of the document.
-/

namespace PreviewLint

/-- A definition that has selections. -/
inductive Container where
  | operation (operation : Operation)
  | fragment (fragment : Fragment)

/-- Where a field or spread stands. -/
inductive Placement where
  | root (container : Container)
  /-- Below a field. -/
  | nested

namespace Placement

/-- The placement of a node with the given nodes above it, the nearest first. -/
def ofAncestors : List Ancestor → Placement
  | .selectionSet _ :: above => ofAncestors above
  | .inline _ :: above => ofAncestors above
  | [.operation operation, .document] => root (.operation operation)
  | [.fragment fragment, .document] => root (.fragment fragment)
  | _ => nested

end Placement

end PreviewLint
