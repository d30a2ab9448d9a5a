import PreviewLint.Proofs.Search

/-!
# Remembered answers do not show

Searches in one document share what they remember. This file proves that nothing of it
shows: after any searches before it, also after searches that ended with a cycle, a search
gives what the search without memory gives, the names along a cycle included.

Two facts carry the proof. A fragment on the path of a search has no answer yet, so no
answer can hide a cycle. And every answer was found with the answers before it alone
(`Justified`), so the search without memory finds the same answer from any path on which
no fragment has an answer: it never leaves the fragments that have one.
-/

namespace PreviewLint

namespace Reachability

/-- What an action gives, and what is remembered after it. -/
def exec {ε α : Type} (action : ExceptT ε (StateM Reachability) α) (memory : Reachability) :
    Except ε α × Reachability :=
  action.run.run memory

section Exec

variable {ε α β : Type}

theorem exec_bind (action : ExceptT ε (StateM Reachability) α)
    (next : α → ExceptT ε (StateM Reachability) β) (memory : Reachability) :
    exec (action >>= next) memory =
      match exec action memory with
      | (.ok value, after) => exec (next value) after
      | (.error cause, after) => (.error cause, after) := by
  rw [exec, ExceptT.run_bind, StateT.run_bind]
  change _ = match action.run.run memory with
    | (.ok value, after) => exec (next value) after
    | (.error cause, after) => (.error cause, after)
  obtain ⟨_ | _, _⟩ := action.run.run memory <;> rfl

end Exec

/-- Answers that were found one after the other, each with the ones before it alone. -/
inductive Justified (document : Document) : Fields Bool → Prop where
  | empty : Justified document ∅
  | insert {answers : Fields Bool} {name : String} {answer : Bool}
      (earlier : Justified document answers) (fresh : answers.get? name = none)
      (found : anyUser answers.get? (document.users name) = some answer) :
      Justified document (answers.insert name answer)

/-- None of the fragments on a path has an answer. -/
def Unanswered (path : List String) (answers : Fields Bool) : Prop :=
  ∀ name ∈ path, answers.get? name = none

/-- What is remembered is true of the document. -/
structure Consistent (document : Document) (memory : Reachability) : Prop where
  index : UsageIndex.Consistent document memory.index
  justified : Justified document memory.answers

/-- A later memory still has the answers of an earlier one. -/
def Keeps (before after : Fields Bool) : Prop :=
  ∀ name answer, before.get? name = some answer → after.get? name = some answer

/--
An action gives `expected` and leaves a memory behind that is consistent and has no answers
for the path. If it gives an answer, then `lookup` finds it among the answers.
-/
def YieldsFrom (document : Document) (path : List String) (memory : Reachability)
    (action : Search Bool) (expected : Except (List String) Bool)
    (lookup : Fields Bool → Option Bool) : Prop :=
  ∃ after, exec action memory = (expected, after) ∧ Consistent document after ∧
    Unanswered path after.answers ∧ Keeps memory.answers after.answers ∧
    ∀ answer, expected = .ok answer → lookup after.answers = some answer

/-- An action does so from every consistent memory that has no answers for the path. -/
def Yields (document : Document) (path : List String) (action : Search Bool)
    (expected : Except (List String) Bool) (lookup : Fields Bool → Option Bool) : Prop :=
  ∀ memory, Consistent document memory → Unanswered path memory.answers →
    YieldsFrom document path memory action expected lookup

theorem unanswered_append_singleton {path : List String} {name : String} {answers : Fields Bool} :
    Unanswered (path ++ [name]) answers ↔ Unanswered path answers ∧ answers.get? name = none := by
  simp [Unanswered, or_imp, forall_and]

theorem Keeps.trans {first second third : Fields Bool} (start : Keeps first second)
    (rest : Keeps second third) : Keeps first third := by
  intro name answer remembered
  exact rest name answer (start name answer remembered)

theorem keeps_insert {answers : Fields Bool} {name : String} (answer : Bool)
    (fresh : answers.get? name = none) : Keeps answers (answers.insert name answer) := by
  intro other remembered found
  have differs : name ≠ other := by
    rintro rfl
    simp [fresh] at found
  rw [Fields.get?_insert, if_neg differs, found]

/-- An answer that users give from memory is given by any visit that agrees with memory. -/
theorem anyUser_eq_ok {ε : Type} {stored : String → Option Bool} {visit : String → Except ε Bool}
    {users : List Container} {answer : Bool}
    (agree : ∀ fragment, .fragment fragment ∈ users → ∀ remembered,
      stored fragment.name = some remembered → visit fragment.name = .ok remembered)
    (found : anyUser stored users = some answer) : anyUser visit users = .ok answer := by
  induction users with
  | nil =>
      simp only [anyUser, pure, Option.some.injEq] at found
      subst answer
      rfl
  | cons user users ih =>
      cases user with
      | operation operation =>
          simp only [anyUser, pure, Option.some.injEq] at found
          subst answer
          rfl
      | fragment fragment =>
          simp only [anyUser] at found ⊢
          cases remembered : stored fragment.name with
          | none => simp [remembered] at found
          | some first =>
              rw [agree fragment List.mem_cons_self first remembered]
              rw [remembered] at found
              cases first with
              | true =>
                  have answered : true = answer := by simpa using found
                  subst answer
                  rfl
              | false =>
                  exact ih (fun other member => agree other (List.mem_cons_of_mem _ member)) found

/-- From a path without answers, the search without memory finds what is remembered. -/
theorem Justified.searchFrom_eq {document : Document} {answers : Fields Bool}
    (justified : Justified document answers) {asked name : String} {path : List String}
    {answer : Bool} (remembered : answers.get? name = some answer)
    (unanswered : Unanswered path answers) (known : name ∈ asked :: document.fragmentNames) :
    document.searchFrom asked path name = .ok answer := by
  induction justified generalizing name path answer with
  | empty => simp at remembered
  | @insert answers last found earlier fresh scan ih =>
      have unansweredEarlier : Unanswered path answers := by
        intro user member
        have missing := unanswered user member
        rw [Fields.get?_insert] at missing
        split at missing
        · cases missing
        · exact missing
      rw [Fields.get?_insert] at remembered
      by_cases same : last = name
      · subst name
        rw [if_pos rfl, Option.some.injEq] at remembered
        subst answer
        have open_ : last ∉ path := by
          intro member
          simpa [Fields.get?_insert] using unanswered last member
        rw [Document.searchFrom_eq_ite known, if_neg open_]
        apply anyUser_eq_ok _ scan
        intro fragment user first recalled
        apply ih recalled
        · exact unanswered_append_singleton.mpr ⟨unansweredEarlier, fresh⟩
        · exact List.mem_cons_of_mem _ (Document.fragmentName_mem user)
      · rw [if_neg same] at remembered
        exact ih remembered unansweredEarlier known

/-- Visiting users one after the other yields what the visits yield. -/
theorem anyUser_yields {document : Document} {path : List String} {visit : String → Search Bool}
    {plain : String → Except (List String) Bool} {users : List Container}
    (visits : ∀ fragment, .fragment fragment ∈ users →
      Yields document path (visit fragment.name) (plain fragment.name) (·.get? fragment.name)) :
    Yields document path (anyUser visit users) (anyUser plain users)
      fun answers => anyUser answers.get? users := by
  induction users with
  | nil =>
      intro memory consistent unanswered
      refine ⟨memory, rfl, consistent, unanswered, fun _ _ remembered => remembered, ?_⟩
      rintro _ ⟨⟩
      rfl
  | cons user users ih =>
      intro memory consistent unanswered
      cases user with
      | operation operation =>
          refine ⟨memory, rfl, consistent, unanswered, fun _ _ remembered => remembered, ?_⟩
          rintro _ ⟨⟩
          rfl
      | fragment fragment =>
          rcases visits fragment List.mem_cons_self memory consistent unanswered with
            ⟨middle, runs, consistent, unanswered, keeps, remembered⟩
          simp only [YieldsFrom, anyUser, exec_bind, runs]
          cases first : plain fragment.name with
          | error cause =>
              exact ⟨middle, rfl, consistent, unanswered, keeps, by rintro _ ⟨⟩⟩
          | ok found =>
              cases found with
              | true =>
                  refine ⟨middle, rfl, consistent, unanswered, keeps, ?_⟩
                  rintro _ ⟨⟩
                  simp [remembered true first]
              | false =>
                  have rest := ih fun other member => visits other (List.mem_cons_of_mem _ member)
                  rcases rest middle consistent unanswered with
                    ⟨after, runs, consistent, unanswered, keepsRest, found⟩
                  refine ⟨after, runs, consistent, unanswered, keeps.trans keepsRest, ?_⟩
                  intro answer answered
                  -- What the first visit has remembered is still there after the others.
                  have recalled := keepsRest fragment.name false (remembered false first)
                  simpa [recalled] using found answer answered

theorem exec_remembered? (name : String) (memory : Reachability) :
    exec (remembered? name) memory = (.ok (memory.answers.get? name), memory) := rfl

theorem exec_usagesOf (name : String) (memory : Reachability) :
    exec (usagesOf name) memory =
      (.ok (memory.index.usagesOf name).1,
        { memory with index := (memory.index.usagesOf name).2 }) := rfl

theorem exec_resolve_remembered {unvisited path : List String} {name : String} {answer : Bool}
    {memory : Reachability} (remembered : memory.answers.get? name = some answer) :
    exec (resolve unvisited path name) memory = (.ok answer, memory) := by
  rw [resolve, exec_bind, exec_remembered?, remembered]
  rfl

theorem exec_resolve_visited {unvisited path : List String} {name : String}
    {memory : Reachability} (missing : memory.answers.get? name = none)
    (visited : name ∉ unvisited) :
    exec (resolve unvisited path name) memory = (.error (path ++ [name]), memory) := by
  rw [resolve, exec_bind, exec_remembered?, missing]
  simp only [dif_neg visited]
  rfl

/-- A fragment that is entered is resolved by its usages, and its answer is remembered. -/
theorem exec_resolve_entered {unvisited path : List String} {name : String}
    {memory : Reachability} (missing : memory.answers.get? name = none)
    (member : name ∈ unvisited) :
    exec (resolve unvisited path name) memory =
      exec (anyAtRoot (resolve (without name unvisited) (path ++ [name]))
          (memory.index.usagesOf name).1 >>=
          fun answer => remember name answer >>= fun _ => pure answer)
        { memory with index := (memory.index.usagesOf name).2 } := by
  rw [resolve, exec_bind, exec_remembered?, missing]
  simp only [dif_pos member]
  rw [exec_bind, exec_usagesOf]

theorem exec_resolve_unvisited {document : Document} {unvisited path : List String}
    {name : String} {memory : Reachability} (consistent : Consistent document memory)
    (missing : memory.answers.get? name = none) (member : name ∈ unvisited) :
    exec (resolve unvisited path name) memory =
      exec (anyUser (resolve (without name unvisited) (path ++ [name])) (document.users name) >>=
          fun answer => remember name answer >>= fun _ => pure answer)
        { memory with index := (memory.index.usagesOf name).2 } := by
  rw [exec_resolve_entered missing member, consistent.index.usagesOf_eq]
  simp only [anyAtRoot_eq_anyUser, Document.filterMap_container_usagesOf]

theorem yieldsFrom_remembered {document : Document} {asked name : String} {path : List String}
    {unvisited : List String} {memory : Reachability} {answer : Bool}
    (known : name ∈ asked :: document.fragmentNames) (consistent : Consistent document memory)
    (unanswered : Unanswered path memory.answers)
    (remembered : memory.answers.get? name = some answer) :
    YieldsFrom document path memory (resolve unvisited path name)
      (document.searchFrom asked path name) (·.get? name) := by
  rw [consistent.justified.searchFrom_eq remembered unanswered known]
  refine ⟨memory, exec_resolve_remembered remembered, consistent, unanswered,
    fun _ _ recalled => recalled, ?_⟩
  rintro _ ⟨⟩
  exact remembered

/-- A search yields what the search without memory gives, and remembers the answer. -/
theorem resolve_yields (document : Document) {asked name : String} {path : List String}
    (known : name ∈ asked :: document.fragmentNames) :
    Yields document path (resolve (document.unvisited asked path) path name)
      (document.searchFrom asked path name) (·.get? name) := by
  induction path, name using Document.searchFrom.induct document asked with
  | case1 path name member ih =>
      intro memory consistent unanswered
      cases missing : memory.answers.get? name with
      | some answer => exact yieldsFrom_remembered known consistent unanswered missing
      | none =>
          -- The path grows by the fragment before its users are visited.
          have users : Yields document (path ++ [name])
              (anyUser (resolve (document.unvisited asked (path ++ [name])) (path ++ [name]))
                (document.users name))
              (anyUser (document.searchFrom asked (path ++ [name])) (document.users name))
              fun answers => anyUser answers.get? (document.users name) := by
            apply anyUser_yields
            intro fragment user
            exact ih fragment.name (List.mem_cons_of_mem _ (Document.fragmentName_mem user))
          rcases users { memory with index := (memory.index.usagesOf name).2 }
              ⟨consistent.index.usagesOf name, consistent.justified⟩
              (unanswered_append_singleton.mpr ⟨unanswered, missing⟩) with
            ⟨middle, runs, consistentMiddle, unansweredMiddle, keeps, found⟩
          rcases unanswered_append_singleton.mp unansweredMiddle with ⟨unansweredPath, fresh⟩
          rw [YieldsFrom, Document.searchFrom, dif_pos member,
            exec_resolve_unvisited consistent missing member,
            ← Document.unvisited_append_singleton, exec_bind, runs]
          cases answered : anyUser (document.searchFrom asked (path ++ [name]))
              (document.users name) with
          | error cause =>
              exact ⟨middle, rfl, consistentMiddle, unansweredPath, keeps, by rintro _ ⟨⟩⟩
          | ok answer =>
              refine ⟨{ middle with answers := middle.answers.insert name answer }, rfl,
                ⟨consistentMiddle.index,
                  .insert consistentMiddle.justified fresh (found answer answered)⟩, ?_,
                keeps.trans (keeps_insert answer fresh), ?_⟩
              · intro user onPath
                -- The new answer is not one for a fragment on the path.
                have differs : name ≠ user := by
                  rintro rfl
                  exact (Document.mem_unvisited.mp member).2 onPath
                rw [Fields.get?_insert, if_neg differs]
                exact unansweredPath user onPath
              · rintro _ ⟨⟩
                rw [Fields.get?_insert, if_pos rfl]
  | case2 path name visited =>
      intro memory consistent unanswered
      cases missing : memory.answers.get? name with
      | some answer => exact yieldsFrom_remembered known consistent unanswered missing
      | none =>
          rw [Document.searchFrom, dif_neg visited]
          refine ⟨memory, exec_resolve_visited missing visited, consistent, unanswered,
            fun _ _ recalled => recalled, ?_⟩
          rintro _ ⟨⟩

/-- From every consistent memory, an action gives `expected` and leaves one behind. -/
def Agrees {ε α : Type} (document : Document) (action : ExceptT ε (StateM Reachability) α)
    (expected : Except ε α) : Prop :=
  ∀ memory, Consistent document memory →
    ∃ after, exec action memory = (expected, after) ∧ Consistent document after

/-- A search begins with an empty path, and may go to any fragment of the document. -/
theorem exec_isUsedAtRoot {document : Document} {memory : Reachability}
    (index : UsageIndex.Consistent document memory.index) (name : String) :
    exec (isUsedAtRoot name) memory =
      exec (resolve (document.unvisited name []) [] name) memory := by
  have unvisited : document.unvisited name [] = name :: memory.index.document.fragmentNames := by
    simp [Document.unvisited, index.document_eq]
  rw [unvisited]
  rfl

theorem agrees_isUsedAtRoot (document : Document) (name : String) :
    Agrees document (isUsedAtRoot name) (document.search name) := by
  intro memory consistent
  have yields : Yields document [] (resolve (document.unvisited name []) [] name)
      (document.search name) (·.get? name) := resolve_yields document List.mem_cons_self
  rcases yields memory consistent (by simp [Unanswered]) with ⟨after, runs, consistent', _⟩
  exact ⟨after, (exec_isUsedAtRoot consistent.index name).trans runs, consistent'⟩

/-- What is remembered once some fragments were asked for, one after the other. -/
def after (document : Document) (asked : List String) : Reachability :=
  asked.foldl (fun memory name => (exec (isUsedAtRoot name) memory).2) (ofDocument document)

/-- The answer for a fragment once others were asked for. -/
def answerAfter (document : Document) (asked : List String) (name : String) :
    Except (List String) Bool :=
  (exec (isUsedAtRoot name) (after document asked)).1

theorem consistent_after (document : Document) (asked : List String) :
    Consistent document (after document asked) := by
  have run : ∀ memory, Consistent document memory → Consistent document
      (asked.foldl (fun memory name => (exec (isUsedAtRoot name) memory).2) memory) := by
    induction asked with
    | nil => exact fun _ consistent => consistent
    | cons name asked ih =>
        intro memory consistent
        rcases agrees_isUsedAtRoot document name memory consistent with ⟨next, runs, consistent⟩
        rw [List.foldl_cons, runs]
        exact ih next consistent
  exact run _ ⟨UsageIndex.consistent_ofDocument document, .empty⟩

theorem answerAfter_eq (document : Document) (asked : List String) (name : String) :
    answerAfter document asked name = document.search name := by
  rcases agrees_isUsedAtRoot document name _ (consistent_after document asked) with ⟨_, runs, _⟩
  rw [answerAfter, runs]

/-- What was asked before, and how it ended, never changes an answer. -/
theorem answerAfter_eq_search (document : Document) (asked : List String) (name : String) :
    answerAfter document asked name = document.search name ∧
      answerAfter document asked name = answerAfter document [] name := by
  simp only [answerAfter_eq, and_self]

end Reachability

end PreviewLint
