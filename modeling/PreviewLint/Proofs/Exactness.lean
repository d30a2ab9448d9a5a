import PreviewLint.Proofs.Memory

/-!
# Answers are exact

A search goes up from a fragment, stops at the first operation and gives up at the first
cycle. This file compares its answers with the graph of fragments, which knows no order:

* the answer is positive only if the fragment is reachable from the root of an operation;
* it is negative exactly if the fragment is not reachable and there is no cycle above it;
* the search gives up only if there is a cycle above the fragment.

No path is needed for the first two. The third one relies on the path of a search being a
path of the graph, so that meeting a fragment of the path again closes a cycle.
-/

namespace PreviewLint

/-- What the users of a fragment can come to, and why. -/
inductive Verdict {ε : Type} (visit : String → Except ε Bool) (users : List Container) :
    Except ε Bool → Prop where
  | operation {operation : Operation} (member : .operation operation ∈ users) :
      Verdict visit users (.ok true)
  | fragment {fragment : Fragment} (member : .fragment fragment ∈ users)
      (found : visit fragment.name = .ok true) : Verdict visit users (.ok true)
  | failed {fragment : Fragment} {cause : ε} (member : .fragment fragment ∈ users)
      (failed : visit fragment.name = .error cause) : Verdict visit users (.error cause)
  | none (noOperation : ∀ operation, .operation operation ∉ users)
      (noFragment : ∀ fragment, .fragment fragment ∈ users → visit fragment.name = .ok false) :
      Verdict visit users (.ok false)

theorem verdict_anyUser {ε : Type} (visit : String → Except ε Bool) (users : List Container) :
    Verdict visit users (anyUser visit users) := by
  induction users with
  | nil => exact .none (by simp) (by simp)
  | cons user users ih =>
      cases user with
      | operation operation => exact .operation List.mem_cons_self
      | fragment fragment =>
          simp only [anyUser]
          cases first : visit fragment.name with
          | error cause => exact .failed List.mem_cons_self first
          | ok answer =>
              cases answer with
              | true => exact .fragment List.mem_cons_self first
              | false =>
                  change Verdict visit _ (anyUser visit users)
                  generalize anyUser visit users = outcome at ih ⊢
                  cases ih with
                  | operation member => exact .operation (List.mem_cons_of_mem _ member)
                  | fragment member found =>
                      exact .fragment (List.mem_cons_of_mem _ member) found
                  | failed member failed =>
                      exact .failed (List.mem_cons_of_mem _ member) failed
                  | none noOperation noFragment =>
                      apply Verdict.none
                      · simpa using noOperation
                      · intro other member
                        rcases List.mem_cons.mp member with same | member
                        · cases same
                          exact first
                        · exact noFragment other member

namespace Document

variable {document : Document} {asked name : String} {path : List String}

/-- What a search finds out about a fragment, it finds out from the users of the fragment. -/
theorem verdict_searchFrom (member : name ∈ document.unvisited asked path) :
    Verdict (document.searchFrom asked (path ++ [name])) (document.users name)
      (document.searchFrom asked path name) := by
  rw [searchFrom, dif_pos member]
  exact verdict_anyUser _ _

theorem rootReachable_of_searchFrom (found : document.searchFrom asked path name = .ok true) :
    document.RootReachable name := by
  induction path, name using searchFrom.induct document asked with
  | case1 path name member ih =>
      have verdict := verdict_searchFrom member
      rw [found] at verdict
      cases verdict with
      | operation user =>
          rcases operation_mem_users.mp user with ⟨defined, spreads⟩
          exact .operation defined spreads
      | fragment user visited =>
          rcases fragment_mem_users.mp user with ⟨defined, spreads⟩
          exact .fragment defined spreads (ih _ visited)
  | case2 path name visited =>
      rw [searchFrom, dif_neg visited] at found
      cases found

/-- Behind a negative answer there is no operation, and a negative answer for every user. -/
theorem users_of_searchFrom (found : document.searchFrom asked path name = .ok false) :
    (∀ operation, .operation operation ∉ document.users name) ∧
      ∀ fragment, .fragment fragment ∈ document.users name →
        document.searchFrom asked (path ++ [name]) fragment.name = .ok false := by
  by_cases member : name ∈ document.unvisited asked path
  · have verdict := verdict_searchFrom member
    rw [found] at verdict
    cases verdict with
    | none noOperation noFragment => exact ⟨noOperation, noFragment⟩
  · rw [searchFrom, dif_neg member] at found
    cases found

theorem not_rootReachable_of_searchFrom
    (found : document.searchFrom asked path name = .ok false) :
    ¬document.RootReachable name := by
  intro reachable
  induction reachable generalizing path with
  | operation defined spreads =>
      exact (users_of_searchFrom found).1 _ (operation_mem_users.mpr ⟨defined, spreads⟩)
  | fragment defined spreads reachable ih =>
      exact ih ((users_of_searchFrom found).2 _ (fragment_mem_users.mpr ⟨defined, spreads⟩))

theorem not_onCycle_of_searchFrom (found : document.searchFrom asked path name = .ok false)
    {other : String} (above : document.Above name other) : ¬document.OnCycle other := by
  induction path, name using searchFrom.induct document asked with
  | case1 path name member ih =>
      have usersFree : ∀ user, document.SpreadIn name user → document.Above user other →
          ¬document.OnCycle other := by
        intro user spread above
        rcases exists_user_of_spreadIn spread with ⟨fragment, member, rfl⟩
        exact ih fragment.name ((users_of_searchFrom found).2 fragment member) above
      rcases Relation.ReflTransGen.cases_head above with rfl | ⟨user, spread, above⟩
      · -- A cycle through the fragment itself leads through one of its users.
        intro cycle
        rcases Relation.TransGen.head'_iff.mp cycle with ⟨user, spread, back⟩
        exact usersFree user spread back cycle
      · exact usersFree user spread above
  | case2 path name visited =>
      rw [searchFrom, dif_neg visited] at found
      cases found

/-- A search gives up only below a cycle. -/
theorem exists_onCycle_of_searchFrom {chain : List String}
    (known : name ∈ asked :: document.fragmentNames)
    (connected : ∀ earlier ∈ path, Relation.TransGen document.SpreadIn earlier name)
    (gaveUp : document.searchFrom asked path name = .error chain) :
    ∃ other, document.Above name other ∧ document.OnCycle other := by
  induction path, name using searchFrom.induct document asked with
  | case1 path name member ih =>
      have verdict := verdict_searchFrom member
      rw [gaveUp] at verdict
      cases verdict with
      | @failed fragment _ user failed =>
          have spread := spreadIn_of_mem_users user
          have longer : ∀ earlier ∈ path ++ [name],
              Relation.TransGen document.SpreadIn earlier fragment.name := by
            intro earlier onPath
            rcases List.mem_append.mp onPath with onPath | last
            · exact (connected earlier onPath).tail spread
            · rw [List.mem_singleton.mp last]
              exact .single spread
          rcases ih fragment.name (List.mem_cons_of_mem _ (fragmentName_mem user)) longer failed
            with ⟨other, above, cycle⟩
          exact ⟨other, above.head spread, cycle⟩
  | case2 path name visited =>
      have onPath : name ∈ path := by
        by_contra fresh
        exact visited (mem_unvisited.mpr ⟨known, fresh⟩)
      exact ⟨name, .refl, connected name onPath⟩

theorem rootReachable_of_search (found : document.search name = .ok true) :
    document.RootReachable name :=
  rootReachable_of_searchFrom found

theorem exists_onCycle_of_search {chain : List String}
    (failed : document.search name = .error chain) :
    ∃ other, document.Above name other ∧ document.OnCycle other :=
  exists_onCycle_of_searchFrom List.mem_cons_self (by simp) failed

/-- A search answers in the negative exactly if it meets neither an operation nor a cycle. -/
theorem search_eq_ok_false_iff :
    document.search name = .ok false ↔
      ¬document.RootReachable name ∧ ∀ other, document.Above name other →
        ¬document.OnCycle other := by
  constructor
  · intro found
    exact ⟨not_rootReachable_of_searchFrom found,
      fun _ above => not_onCycle_of_searchFrom found above⟩
  · rintro ⟨unreachable, acyclic⟩
    cases found : document.search name with
    | error chain =>
        rcases exists_onCycle_of_search found with ⟨other, above, cycle⟩
        exact absurd cycle (acyclic other above)
    | ok answer =>
        cases answer with
        | true => exact absurd (rootReachable_of_search found) unreachable
        | false => rfl

end Document

namespace Reachability

/-- Every answer is exact, whatever was asked before. -/
theorem answerAfter_exact (document : Document) (asked : List String) (name : String) :
    (answerAfter document asked name = .ok true → document.RootReachable name) ∧
      (answerAfter document asked name = .ok false ↔
        ¬document.RootReachable name ∧ ∀ other, document.Above name other →
          ¬document.OnCycle other) ∧
      ((∀ other, ¬document.OnCycle other) →
        ∃ answer, answerAfter document asked name = .ok answer ∧
          (answer = true ↔ document.RootReachable name)) ∧
      ∀ chain, answerAfter document asked name = .error chain →
        ∃ other, document.Above name other ∧ document.OnCycle other := by
  rw [answerAfter_eq]
  refine ⟨Document.rootReachable_of_search, Document.search_eq_ok_false_iff, ?_,
    fun _ failed => Document.exists_onCycle_of_search failed⟩
  intro acyclic
  cases found : document.search name with
  | error chain =>
      rcases Document.exists_onCycle_of_search found with ⟨other, _, cycle⟩
      exact absurd cycle (acyclic other)
  | ok answer =>
      refine ⟨answer, rfl, ?_⟩
      cases answer with
      | true => simpa using Document.rootReachable_of_search found
      | false => simpa using (Document.search_eq_ok_false_iff.mp found).1

end Reachability

end PreviewLint
