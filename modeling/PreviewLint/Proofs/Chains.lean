import PreviewLint.Preview.Placement

/-!
# Placements of arbitrary chains

A placement is read off a list of nodes, and nothing keeps that list from being one that no
walk hands out: it may be empty, name several definitions, lack the document or have it in the
middle. This file says which lists have a placement at the root of a definition. They are
those that a walk hands out for the fields and spreads at its root, and no others.

A chain is written from the outside in here, so that the nearest node is its last one. The
placement can then also be found by indices into the chain: from the last index down to the first
node that is no selection set and no inline fragment, which has to be a definition at index 1 with
the document at index 0.
-/

namespace PreviewLint

namespace Ancestor

/-- Selection sets and inline fragments, which do not keep a node from the root. -/
def isTransparent : Ancestor → Bool
  | selectionSet _ | inline _ => true
  | document | operation _ | fragment _ | field _ => false

def isDocument : Ancestor → Bool
  | document => true
  | _ => false

end Ancestor

namespace Container

/-- A definition as it stands above its selections. -/
def ancestor : Container → Ancestor
  | operation defined => .operation defined
  | fragment defined => .fragment defined

/-- A chain from the document through a definition and then through no field and no definition. -/
def LeadsBy (container : Container) (chain : List Ancestor) : Prop :=
  ∃ inner : List Ancestor, chain = .document :: container.ancestor :: inner ∧
    ∀ ancestor ∈ inner, ancestor.isTransparent

end Container

namespace Placement

/-- Transparent nodes are passed, as many as there are. -/
theorem ofAncestors_append {inner : List Ancestor} (above : List Ancestor)
    (transparent : ∀ ancestor ∈ inner, ancestor.isTransparent) :
    ofAncestors (inner ++ above) = ofAncestors above := by
  induction inner with
  | nil => rfl
  | cons ancestor inner ih =>
      rw [List.forall_mem_cons] at transparent
      have rest := ih transparent.2
      cases ancestor with
      | selectionSet selections => exact rest
      | inline fragment => exact rest
      | document | operation | fragment | field => cases transparent.1

theorem ofAncestors_definition (container : Container) :
    ofAncestors [container.ancestor, .document] = root container := by
  cases container <;> rfl

/-- What is placed at the root has nothing but transparent nodes below its definition. -/
theorem exists_inner {above : List Ancestor} {container : Container}
    (placed : ofAncestors above = root container) :
    ∃ inner : List Ancestor, above = inner ++ [container.ancestor, .document] ∧
      ∀ ancestor ∈ inner, ancestor.isTransparent := by
  fun_induction ofAncestors above with
  | case1 selections above ih =>
      rcases ih placed with ⟨inner, rfl, transparent⟩
      exact ⟨.selectionSet selections :: inner, rfl, List.forall_mem_cons.mpr ⟨rfl, transparent⟩⟩
  | case2 fragment above ih =>
      rcases ih placed with ⟨inner, rfl, transparent⟩
      exact ⟨.inline fragment :: inner, rfl, List.forall_mem_cons.mpr ⟨rfl, transparent⟩⟩
  | case3 operation =>
      cases placed
      exact ⟨[], rfl, List.forall_mem_nil _⟩
  | case4 fragment =>
      cases placed
      exact ⟨[], rfl, List.forall_mem_nil _⟩
  | case5 => cases placed

theorem ofAncestors_eq_root_iff {chain : List Ancestor} {container : Container} :
    ofAncestors chain.reverse = root container ↔ container.LeadsBy chain := by
  constructor
  · intro placed
    rcases exists_inner placed with ⟨inner, above, transparent⟩
    refine ⟨inner.reverse, ?_, fun ancestor member => transparent _ (List.mem_reverse.mp member)⟩
    rw [← List.reverse_reverse chain, above, List.reverse_append]
    rfl
  · rintro ⟨inner, rfl, transparent⟩
    rw [List.reverse_cons, List.reverse_cons, List.append_assoc, ofAncestors_append]
    · exact ofAncestors_definition container
    · exact fun ancestor member => transparent _ (List.mem_reverse.mp member)

/-! ## Placements by index -/

/-- The placement that the nodes of a chain before an index give, the last of them first. -/
def before (chain : List Ancestor) : Nat → Placement
  | 0 => nested
  | index + 1 =>
    let definition (container : Container) : Placement :=
      if index = 1 ∧ chain[0]?.any Ancestor.isDocument then root container else nested
    match chain[index]? with
    | some (.selectionSet _) | some (.inline _) => before chain index
    | some (.operation operation) => definition (.operation operation)
    | some (.fragment fragment) => definition (.fragment fragment)
    | _ => nested

/-- The placement of a node with the given nodes above it, the nearest last. -/
def ofChain (chain : List Ancestor) : Placement := before chain chain.length

/-- A definition with anything but the document alone above it is no root. -/
theorem ofAncestors_definition_of_ne (container : Container) {above : List Ancestor}
    (other : above ≠ [.document]) : ofAncestors (container.ancestor :: above) = nested := by
  cases placed : ofAncestors (container.ancestor :: above) with
  | nested => rfl
  | root found =>
      obtain ⟨inner, same, transparent⟩ := exists_inner placed
      cases inner with
      | nil => exact absurd (List.cons.inj same).2 other
      | cons first inner =>
          have passed := transparent first List.mem_cons_self
          rw [← (List.cons.inj same).1] at passed
          cases container <;> cases passed

theorem reverse_take_eq_iff {chain : List Ancestor} {index : Nat} (inside : index ≤ chain.length) :
    (chain.take index).reverse = [.document] ↔
      index = 1 ∧ chain[0]?.any Ancestor.isDocument := by
  constructor
  · intro alone
    have length := congrArg List.length alone
    rw [List.length_reverse, List.length_take, Nat.min_eq_left inside] at length
    refine ⟨length, ?_⟩
    cases chain with
    | nil =>
        subst length
        cases inside
    | cons first chain =>
        subst length
        cases alone
        rfl
  · rintro ⟨rfl, document⟩
    cases chain with
    | nil => cases document
    | cons first chain => cases first <;> first | rfl | cases document

theorem ofAncestors_definition_cons (container : Container) {chain : List Ancestor} {index : Nat}
    (inside : index ≤ chain.length) :
    ofAncestors (container.ancestor :: (chain.take index).reverse) =
      if index = 1 ∧ chain[0]?.any Ancestor.isDocument then root container else nested := by
  split
  · next alone =>
      rw [(reverse_take_eq_iff inside).mpr alone]
      exact ofAncestors_definition container
  · next other =>
      exact ofAncestors_definition_of_ne container (mt (reverse_take_eq_iff inside).mp other)

/-- Going down the indices of a chain finds what going up its nodes finds. -/
theorem before_eq_ofAncestors {chain : List Ancestor} {index : Nat}
    (inside : index ≤ chain.length) :
    before chain index = ofAncestors (chain.take index).reverse := by
  induction index with
  | zero => rfl
  | succ index ih =>
      have found : chain[index]? = some chain[index] := List.getElem?_eq_getElem inside
      have above : (chain.take (index + 1)).reverse =
          chain[index] :: (chain.take index).reverse := by
        rw [List.take_add_one, found, List.reverse_append]
        rfl
      have earlier := Nat.le_of_succ_le inside
      rw [before, above, found]
      cases chain[index] with
      | selectionSet selections => exact ih earlier
      | inline fragment => exact ih earlier
      | operation operation =>
          exact (ofAncestors_definition_cons (.operation operation) earlier).symm
      | fragment fragment =>
          exact (ofAncestors_definition_cons (.fragment fragment) earlier).symm
      | document | field => rfl

theorem ofChain_eq_ofAncestors (chain : List Ancestor) :
    ofChain chain = ofAncestors chain.reverse := by
  rw [ofChain, before_eq_ofAncestors (Nat.le_refl _), List.take_length]

/--
A chain of any nodes is placed at the root of a definition if and only if it consists of the
document, the definition, and selection sets and inline fragments. All others are nested. The
indices of the chain give the same placement as the nodes from the nearest one up.
-/
theorem placement_of_chain (chain : List Ancestor) :
    ofChain chain = ofAncestors chain.reverse ∧
      (∀ container, ofAncestors chain.reverse = root container ↔ container.LeadsBy chain) ∧
      (ofAncestors chain.reverse = nested ↔ ∀ container : Container, ¬container.LeadsBy chain) := by
  refine ⟨ofChain_eq_ofAncestors chain, fun container => ofAncestors_eq_root_iff, ?_⟩
  constructor
  · intro placed container leads
    rw [ofAncestors_eq_root_iff.mpr leads] at placed
    cases placed
  · intro astray
    cases placed : ofAncestors chain.reverse with
    | nested => rfl
    | root container => exact absurd (ofAncestors_eq_root_iff.mp placed) (astray container)

end Placement

end PreviewLint
