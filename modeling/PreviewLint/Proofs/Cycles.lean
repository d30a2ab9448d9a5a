import Mathlib.Data.List.Chain
import Mathlib.Data.List.Nodup
import PreviewLint.Proofs.Exactness

/-!
# Reported cycles

A search that gives up reports the names along its path and the name that it met again.
This file proves that such a report can be checked against the document alone: it is a way
up the graph of fragments that starts at the fragment that was asked for, meets no name
twice before its end, and ends at a name that it met before.

The way to a cycle may be longer than the cycle. What a search keeps on its path, and what
answers of earlier searches cut off, plays no part in the statement: `Document.Trail` says
what is true of the path at every moment of a search without memory, and the report is the
trail at the moment when it closes.
-/

namespace PreviewLint

namespace Document

/-- A way up the graph from `asked` along `path` to `name`. No name is on the path twice. -/
structure Trail (document : Document) (asked : String) (path : List String) (name : String) :
    Prop where
  starts : (path ++ [name]).head? = some asked
  distinct : path.Nodup
  defined : ∀ other ∈ (path ++ [name]).tail, other ∈ document.fragmentNames
  linked : (path ++ [name]).IsChain document.SpreadIn

/-- A way up the graph from `asked` that meets its last name, and no other, a second time. -/
structure ReportedCycle (document : Document) (asked : String) (chain : List String) : Prop where
  long : 2 ≤ chain.length
  starts : chain.head? = some asked
  distinct : chain.dropLast.Nodup
  recurs : ∃ last ∈ chain.dropLast, chain.getLast? = some last
  defined : ∀ name ∈ chain.tail, name ∈ document.fragmentNames
  linked : chain.IsChain document.SpreadIn

variable {document : Document} {asked name : String} {path : List String}

namespace Trail

theorem start (document : Document) (asked : String) : document.Trail asked [] asked where
  starts := rfl
  distinct := List.nodup_nil
  defined := by simp
  linked := List.isChain_singleton asked

/-- A search goes on from a name that is not on its path to a fragment that spreads it. -/
theorem extend (trail : document.Trail asked path name) (fresh : name ∉ path)
    {fragment : Fragment} (user : .fragment fragment ∈ document.users name) :
    document.Trail asked (path ++ [name]) fragment.name where
  starts := by
    rw [List.head?_append_of_ne_nil _ (by simp)]
    exact trail.starts
  distinct := by
    rw [← List.concat_eq_append]
    exact List.Nodup.concat fresh trail.distinct
  defined := by
    intro other later
    rw [List.tail_append_of_ne_nil (by simp)] at later
    rcases List.mem_append.mp later with earlier | last
    · exact trail.defined other earlier
    · rw [List.mem_singleton.mp last]
      exact fragmentName_mem user
  linked := by
    rw [List.append_assoc]
    apply List.isChain_append_cons_cons.mpr
    exact ⟨trail.linked, spreadIn_of_mem_users user, List.isChain_singleton _⟩

/-- A trail that comes back to a name on its path is a cycle to report. -/
theorem close (trail : document.Trail asked path name) (visited : name ∈ path) :
    document.ReportedCycle asked (path ++ [name]) where
  long := by
    have nonempty := List.length_pos_of_mem visited
    rw [List.length_append, List.length_singleton]
    omega
  starts := trail.starts
  distinct := by
    rw [List.dropLast_concat]
    exact trail.distinct
  recurs := by
    refine ⟨name, ?_, List.getLast?_concat⟩
    rw [List.dropLast_concat]
    exact visited
  defined := trail.defined
  linked := trail.linked

end Trail

/-- A report shows a cycle: its last name is reached from itself. -/
theorem ReportedCycle.onCycle {chain : List String} (report : document.ReportedCycle asked chain) :
    ∃ last, chain.getLast? = some last ∧ document.OnCycle last := by
  rcases report.recurs with ⟨last, visited, ends⟩
  refine ⟨last, ends, ?_⟩
  rcases List.getLast?_eq_some_iff.mp ends with ⟨path, rfl⟩
  rw [List.dropLast_concat] at visited
  rcases List.append_of_mem visited with ⟨before, between, rfl⟩
  -- From the first time the last name is met, the chain is a way back to it.
  have linked := report.linked
  rw [List.append_assoc, List.cons_append] at linked
  have back : (last :: (between ++ [last])).IsChain (Relation.TransGen document.SpreadIn) :=
    linked.right_of_append.imp fun _ _ spread => .single spread
  exact back.rel_cons (List.mem_append_right _ List.mem_cons_self)

/-- Every report of a search without memory closes the trail that the search went. -/
theorem reportedCycle_of_searchFrom {chain : List String}
    (known : name ∈ asked :: document.fragmentNames) (trail : document.Trail asked path name)
    (gaveUp : document.searchFrom asked path name = .error chain) :
    document.ReportedCycle asked chain := by
  induction path, name using searchFrom.induct document asked with
  | case1 path name member ih =>
      have verdict := verdict_searchFrom member
      rw [gaveUp] at verdict
      cases verdict with
      | @failed fragment _ user failed =>
          apply ih fragment.name (List.mem_cons_of_mem _ (fragmentName_mem user)) _ failed
          exact trail.extend (mem_unvisited.mp member).2 user
  | case2 path name visited =>
      rw [searchFrom, dif_neg visited] at gaveUp
      cases gaveUp
      apply trail.close
      by_contra fresh
      exact visited (mem_unvisited.mpr ⟨known, fresh⟩)

end Document

namespace Reachability

/-- A reported cycle is one of the document, whatever was asked before. -/
theorem reportedCycle_of_answerAfter (document : Document) (asked : List String) (name : String)
    {chain : List String} (failed : answerAfter document asked name = .error chain) :
    document.ReportedCycle name chain ∧
      ∃ last, chain.getLast? = some last ∧ document.OnCycle last := by
  rw [answerAfter_eq] at failed
  have report : document.ReportedCycle name chain :=
    Document.reportedCycle_of_searchFrom List.mem_cons_self (.start document name) failed
  exact ⟨report, report.onCycle⟩

/--
The document `{ ...Free }` with the fragments `Free { id }`, `Leaf { id }`,
`Inner { ...Leaf ... { ...Outer } }` and `Outer { ...Inner node { ...Leaf } }`.
-/
def loopedFragments : Document :=
  ⟨[.operation ⟨⟨⟨1, 1⟩, .query, [], [], [.spread ⟨⟨1, 3⟩, "Free", []⟩]⟩, none⟩,
    .fragment ⟨⟨⟨2, 1⟩, "T", [], [.field ⟨⟨2, 22⟩, none, "id", [], []⟩ []]⟩, "Free"⟩,
    .fragment ⟨⟨⟨3, 1⟩, "T", [], [.field ⟨⟨3, 22⟩, none, "id", [], []⟩ []]⟩, "Leaf"⟩,
    .fragment ⟨⟨⟨4, 1⟩, "T", [],
      [.spread ⟨⟨4, 23⟩, "Leaf", []⟩,
        .inline ⟨⟨4, 31⟩, none, []⟩ [.spread ⟨⟨4, 37⟩, "Outer", []⟩]]⟩, "Inner"⟩,
    .fragment ⟨⟨⟨5, 1⟩, "T", [],
      [.spread ⟨⟨5, 23⟩, "Inner", []⟩,
        .field ⟨⟨5, 32⟩, none, "node", [], []⟩ [.spread ⟨⟨5, 39⟩, "Leaf", []⟩]]⟩, "Outer"⟩]⟩

/-- Two fragments spread each other, and the one that is asked for leads to them. -/
theorem loopedFragments_reported :
    answerAfter loopedFragments ["Outer", "Free"] "Leaf" =
        .error ["Leaf", "Inner", "Outer", "Inner"] ∧
      loopedFragments.ReportedCycle "Leaf" ["Leaf", "Inner", "Outer", "Inner"] := by
  have failed : answerAfter loopedFragments ["Outer", "Free"] "Leaf" =
      .error ["Leaf", "Inner", "Outer", "Inner"] := by decide +kernel
  exact ⟨failed, (reportedCycle_of_answerAfter _ _ _ failed).1⟩

end Reachability

end PreviewLint
