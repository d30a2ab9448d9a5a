import Mathlib.Data.List.Dedup
import Mathlib.Data.List.Perm.Subperm
import PreviewLint.Proofs.Cycles

/-!
# The search ends

A search is carried out step by step here. A moment of it shows the fragments that are being
resolved, each with the usages that were not looked at yet, and the rule for the next moment
compares a fragment with the path alone: nothing in it becomes smaller, and nothing in it says
that the search ends.

What one step keeps is that the path is a trail (`Document.Trail`): its names are distinct, and
all but the first are names of fragments, since a usage is placed at the root of a definition of
the document. So the path never has more names than there are names of fragments, and one.

That the search ends follows from its rule for the names that are left: from the moment at which
a fragment is entered, the steps lead to what `resolve` gives for it. Hence every moment of a
search leads to one last moment, whatever earlier searches remember and whatever cycles there are.
-/

namespace PreviewLint.Reachability

/-- A fragment that is being resolved, and the usages of it that were not looked at yet. -/
structure Frame where
  name : String
  pending : List Usage

/-- The names of some frames, of which the innermost is given first, from the outside in. -/
def pathOf (frames : List Frame) : List String := (frames.map Frame.name).reverse

/-- A moment of a search, with the frames around it. -/
inductive Moment where
  /-- The search turns to a fragment. -/
  | entering (name : String) (outer : List Frame) (memory : Reachability)
  /-- The search looks at the next usage of a fragment. -/
  | looking (frame : Frame) (outer : List Frame) (memory : Reachability)
  /-- The search comes back with an answer. -/
  | returning (found : Bool) (outer : List Frame) (memory : Reachability)
  /-- The search gives up. -/
  | failing (cycle : List String) (outer : List Frame) (memory : Reachability)

namespace Moment

/-- The fragments that are being resolved, the innermost first. -/
def frames : Moment → List Frame
  | entering _ outer _ | returning _ outer _ | failing _ outer _ => outer
  | looking frame outer _ => frame :: outer

/-- What is remembered at a moment. -/
def memory : Moment → Reachability
  | entering _ _ memory | looking _ _ memory | returning _ _ memory | failing _ _ memory => memory

/-- The names of the fragments that are being resolved, from the outside in. -/
def path (moment : Moment) : List String := pathOf moment.frames

/-- The search comes back from a fragment, and remembers the answer for it. -/
def leaving (name : String) (found : Bool) (outer : List Frame) (memory : Reachability) : Moment :=
  returning found outer { memory with answers := memory.answers.insert name found }

/-- The next moment of a search that is not over. -/
def next? : Moment → Option Moment
  | entering name outer memory =>
    match memory.answers.get? name with
    | some found => some (returning found outer memory)
    | none =>
      if name ∈ pathOf outer then some (failing (pathOf outer ++ [name]) outer memory)
      else
        let (usages, index) := memory.index.usagesOf name
        some (looking ⟨name, usages⟩ outer { memory with index })
  | looking ⟨name, []⟩ outer memory => some (leaving name false outer memory)
  | looking ⟨name, usage :: pending⟩ outer memory =>
    match Placement.ofAncestors usage.ancestors with
    | .nested => some (looking ⟨name, pending⟩ outer memory)
    | .root (.operation _) => some (leaving name true outer memory)
    | .root (.fragment fragment) => some (entering fragment.name (⟨name, pending⟩ :: outer) memory)
  | returning _ [] _ => none
  | returning found (frame :: outer) memory =>
    some (if found then leaving frame.name true outer memory else looking frame outer memory)
  | failing _ _ _ => none

/-- What a search that is over has come to. -/
def outcome? : Moment → Option (Except (List String) Bool × Reachability)
  | returning found [] memory => some (.ok found, memory)
  | failing cycle _ memory => some (.error cycle, memory)
  | returning _ (_ :: _) _ | entering _ _ _ | looking _ _ _ => none

/-- Steps lead from one moment to another. -/
def LeadsTo : Moment → Moment → Prop :=
  Relation.ReflTransGen fun before after => before.next? = some after

theorem next?_eq_none_of_outcome {moment : Moment} {outcome : Except (List String) Bool × Reachability}
    (finished : moment.outcome? = some outcome) : moment.next? = none := by
  cases moment with
  | entering | looking => cases finished
  | failing => rfl
  | returning found outer =>
      cases outer with
      | nil => rfl
      | cons => cases finished

/-- There is one way to go on: every moment before the last one leads to it. -/
theorem LeadsTo.to_last {start moment last : Moment} (leads : start.LeadsTo moment)
    (ends : start.LeadsTo last) (finished : last.next? = none) : moment.LeadsTo last := by
  induction leads using Relation.ReflTransGen.head_induction_on with
  | refl => exact ends
  | head step _ ih =>
      apply ih
      cases ends using Relation.ReflTransGen.head_induction_on with
      | refl =>
          rw [finished] at step
          cases step
      | head other rest =>
          rw [step] at other
          cases other
          exact rest

end Moment

/-! ## What a step keeps -/

section Sound

variable (document : Document) (asked : String)

/-- Frames that form a trail, with usages of the document that are still to be looked at. -/
inductive Tracked : List Frame → Prop where
  | nil : Tracked []
  | cons {frame : Frame} {outer : List Frame}
      (trail : document.Trail asked (pathOf outer) frame.name)
      (fresh : frame.name ∉ pathOf outer)
      (pending : frame.pending ⊆ document.usagesOf frame.name)
      (around : Tracked outer) : Tracked (frame :: outer)

/-- What is true at every moment of a search for a fragment. -/
structure Moment.Sound (moment : Moment) : Prop where
  tracked : Tracked document asked moment.frames
  index : UsageIndex.Consistent document moment.memory.index
  trail : ∀ name outer memory, moment = .entering name outer memory →
    document.Trail asked (pathOf outer) name

end Sound

section Steps

variable {document : Document} {asked name : String} {outer : List Frame} {memory : Reachability}

theorem pathOf_cons (frame : Frame) (outer : List Frame) :
    pathOf (frame :: outer) = pathOf outer ++ [frame.name] := by
  rw [pathOf, List.map_cons, List.reverse_cons, pathOf]

/-- A usage that is placed at the root of a fragment makes the fragment a user. -/
theorem mem_users_of_usage {usage : Usage} {fragment : Fragment}
    (member : usage ∈ document.usagesOf name)
    (placed : Placement.ofAncestors usage.ancestors = .root (.fragment fragment)) :
    .fragment fragment ∈ document.users name := by
  rw [← Document.filterMap_container_usagesOf]
  refine List.mem_filterMap.mpr ⟨usage, member, ?_⟩
  rw [Usage.container?, placed, Placement.container?]

namespace Tracked

theorem nodup {frames : List Frame} (tracked : Tracked document asked frames) :
    (pathOf frames).Nodup := by
  cases tracked with
  | nil => exact List.nodup_nil
  | @cons frame outer trail fresh =>
      rw [pathOf_cons, ← List.concat_eq_append]
      exact List.Nodup.concat fresh trail.distinct

theorem defined {frames : List Frame} (tracked : Tracked document asked frames) :
    ∀ other ∈ (pathOf frames).tail, other ∈ document.fragmentNames := by
  cases tracked with
  | nil => exact List.forall_mem_nil _
  | @cons frame outer trail =>
      rw [pathOf_cons]
      exact trail.defined

theorem head {frames : List Frame} (tracked : Tracked document asked frames) :
    ∀ first ∈ (pathOf frames).head?, first = asked := by
  cases tracked with
  | nil => rintro _ ⟨⟩
  | @cons frame outer trail =>
      intro first member
      rw [pathOf_cons, trail.starts] at member
      exact (Option.some.inj member).symm

/-- A path has no more names than there are names of fragments, and one. -/
theorem length_le {frames : List Frame} (tracked : Tracked document asked frames) :
    (pathOf frames).length ≤ document.fragmentNames.dedup.length + 1 := by
  have distinct : (pathOf frames).tail.Nodup := tracked.nodup.tail
  have inside : (pathOf frames).tail ⊆ document.fragmentNames.dedup := by
    intro other member
    exact List.mem_dedup.mpr (tracked.defined other member)
  have fewer := (List.Nodup.subperm distinct inside).length_le
  rw [List.length_tail] at fewer
  omega

end Tracked

namespace Moment

/-- Coming back to the frames around a fragment, with whatever answers. -/
theorem sound_returning {found : Bool} (tracked : Tracked document asked outer)
    (index : UsageIndex.Consistent document memory.index) :
    (returning found outer memory).Sound document asked :=
  ⟨tracked, index, by rintro _ _ _ ⟨⟩⟩

theorem sound_looking {frame : Frame} (tracked : Tracked document asked (frame :: outer))
    (index : UsageIndex.Consistent document memory.index) :
    (looking frame outer memory).Sound document asked :=
  ⟨tracked, index, by rintro _ _ _ ⟨⟩⟩

theorem sound_entering (trail : document.Trail asked (pathOf outer) name)
    (tracked : Tracked document asked outer)
    (index : UsageIndex.Consistent document memory.index) :
    (entering name outer memory).Sound document asked := by
  refine ⟨tracked, index, ?_⟩
  rintro _ _ _ ⟨⟩
  exact trail

/-- One step of a search keeps its path a trail. -/
theorem Sound.next {moment after : Moment} (sound : moment.Sound document asked)
    (step : moment.next? = some after) : after.Sound document asked := by
  obtain ⟨tracked, index, entered⟩ := sound
  cases moment with
  | entering name outer memory =>
      have trail := entered name outer memory rfl
      simp only [next?] at step
      split at step
      · cases step
        exact sound_returning tracked index
      · split at step
        · cases step
          exact ⟨tracked, index, by rintro _ _ _ ⟨⟩⟩
        · -- Only here does the path grow, by a fragment that is not on it.
          next fresh =>
            cases step
            have usages : (memory.index.usagesOf name).1 = document.usagesOf name :=
              index.usagesOf_eq name
            exact sound_looking (.cons trail fresh (fun _ member => usages ▸ member) tracked)
              (index.usagesOf name)
  | looking frame outer memory =>
      obtain ⟨name, pending⟩ := frame
      cases tracked with
      | cons trail fresh usages around =>
          cases pending with
          | nil =>
              cases step
              exact sound_returning around index
          | cons usage pending =>
              rw [List.cons_subset] at usages
              simp only [next?] at step
              split at step
              · cases step
                exact sound_looking (.cons trail fresh usages.2 around) index
              · cases step
                exact sound_returning around index
              · next fragment placed =>
                  cases step
                  refine sound_entering ?_ (.cons trail fresh usages.2 around) index
                  rw [pathOf_cons]
                  exact trail.extend fresh (mem_users_of_usage usages.1 placed)
  | returning found outer memory =>
      cases tracked with
      | nil => cases step
      | cons trail fresh usages around =>
          cases found with
          | true =>
              cases step
              exact sound_returning around index
          | false =>
              cases step
              exact sound_looking (.cons trail fresh usages around) index
  | failing => cases step

/-- What is true at the start of a search stays true at every moment of it. -/
theorem Sound.of_leadsTo {start moment : Moment} (sound : start.Sound document asked)
    (leads : start.LeadsTo moment) : moment.Sound document asked := by
  induction leads with
  | refl => exact sound
  | tail _ step ih => exact ih.next step

end Moment

/-! ## Where the steps lead -/

/--
A moment leads to where a search with some result goes on: with an answer, to the frames around
it, and else to where the search gives up.
-/
def EndsWith (moment : Moment) (outer : List Frame) :
    Except (List String) Bool × Reachability → Prop
  | (.ok found, after) => moment.LeadsTo (.returning found outer after)
  | (.error cycle, after) => ∃ inner, moment.LeadsTo (.failing cycle inner after)

/-- From a moment, the steps do what an action does, and the usages that it remembers are right. -/
def Performs (document : Document) (moment : Moment) (outer : List Frame) (action : Search Bool)
    (memory : Reachability) : Prop :=
  UsageIndex.Consistent document (exec action memory).2.index ∧
    EndsWith moment outer (exec action memory)

theorem EndsWith.of_leadsTo {moment next : Moment}
    {result : Except (List String) Bool × Reachability} (leads : moment.LeadsTo next)
    (ends : EndsWith next outer result) : EndsWith moment outer result := by
  obtain ⟨_ | _, _⟩ := result
  · rcases ends with ⟨inner, rest⟩
    exact ⟨inner, Relation.ReflTransGen.trans leads rest⟩
  · exact Relation.ReflTransGen.trans leads ends

/-- The answer that is found for a fragment is remembered. -/
def settle (name : String) (search : Search Bool) : Search Bool :=
  search >>= fun found => remember name found >>= fun _ => pure found

theorem exec_settle (name : String) (search : Search Bool) (memory : Reachability) :
    exec (settle name search) memory =
      match exec search memory with
      | (.ok found, after) =>
        (.ok found, { after with answers := after.answers.insert name found })
      | (.error cycle, after) => (.error cycle, after) := by
  rw [settle, exec_bind]
  obtain ⟨_ | _, _⟩ := exec search memory <;> rfl

/--
Looking at usages one after the other does what `anyAtRoot` does, if entering the fragments
that have them at their root does what `visit` does.
-/
theorem performs_looking {visit : String → Search Bool} {pending : List Usage}
    (usages : pending ⊆ document.usagesOf name)
    (visits : ∀ fragment later memory, .fragment fragment ∈ document.users name →
      UsageIndex.Consistent document memory.index →
      Performs document (.entering fragment.name (⟨name, later⟩ :: outer) memory)
        (⟨name, later⟩ :: outer) (visit fragment.name) memory)
    (index : UsageIndex.Consistent document memory.index) :
    Performs document (.looking ⟨name, pending⟩ outer memory) outer
      (settle name (anyAtRoot visit pending)) memory := by
  induction pending generalizing memory with
  | nil => exact ⟨index, .single rfl⟩
  | cons usage pending ih =>
      rw [List.cons_subset] at usages
      cases placed : Placement.ofAncestors usage.ancestors with
      | nested =>
          have rest := ih usages.2 index
          have step : (Moment.looking ⟨name, usage :: pending⟩ outer memory).next? =
              some (.looking ⟨name, pending⟩ outer memory) := by simp only [Moment.next?, placed]
          simp only [anyAtRoot, placed]
          exact ⟨rest.1, .of_leadsTo (.single step) rest.2⟩
      | root container =>
          cases container with
          | operation operation =>
              have step : (Moment.looking ⟨name, usage :: pending⟩ outer memory).next? =
                  some (.leaving name true outer memory) := by simp only [Moment.next?, placed]
              simp only [anyAtRoot, placed]
              exact ⟨index, .single step⟩
          | fragment fragment =>
              have step : (Moment.looking ⟨name, usage :: pending⟩ outer memory).next? =
                  some (.entering fragment.name (⟨name, pending⟩ :: outer) memory) := by
                simp only [Moment.next?, placed]
              rcases visits fragment pending memory (mem_users_of_usage usages.1 placed) index with
                ⟨indexAfter, ends⟩
              simp only [anyAtRoot, placed, Performs, exec_settle, exec_bind]
              generalize exec (visit fragment.name) memory = result at indexAfter ends
              obtain ⟨cycle | found, after⟩ := result
              · exact ⟨indexAfter, .of_leadsTo (.single step) ends⟩
              · cases found with
                | true => exact ⟨indexAfter, .head step (.tail ends rfl)⟩
                | false =>
                    have rest := ih usages.2 indexAfter
                    simp only [Performs, exec_settle] at rest
                    exact ⟨rest.1, .of_leadsTo (.head step (.tail ends rfl)) rest.2⟩

theorem performs_remembered {unvisited path : List String} {found : Bool}
    (remembered : memory.answers.get? name = some found)
    (index : UsageIndex.Consistent document memory.index) :
    Performs document (.entering name outer memory) outer (resolve unvisited path name) memory := by
  have step : (Moment.entering name outer memory).next? =
      some (.returning found outer memory) := by simp only [Moment.next?, remembered]
  rw [Performs, exec_resolve_remembered remembered]
  exact ⟨index, .single step⟩

/--
Entering a fragment does what `resolve` does with the names that are not on the path. The steps
compare the fragment with the path itself, which comes to the same.
-/
theorem performs_entering {path : List String} (known : name ∈ asked :: document.fragmentNames)
    (along : pathOf outer = path) (index : UsageIndex.Consistent document memory.index) :
    Performs document (.entering name outer memory) outer
      (resolve (document.unvisited asked path) path name) memory := by
  induction path, name using Document.searchFrom.induct document asked
    generalizing outer memory with
  | case1 path name member ih =>
      cases missing : memory.answers.get? name with
      | some found => exact performs_remembered missing index
      | none =>
          have fresh : name ∉ pathOf outer := along ▸ (Document.mem_unvisited.mp member).2
          have step : (Moment.entering name outer memory).next? =
              some (.looking ⟨name, (memory.index.usagesOf name).1⟩ outer
                { memory with index := (memory.index.usagesOf name).2 }) := by
            simp only [Moment.next?, missing, if_neg fresh]
          have usages := index.usagesOf_eq name
          have looking : Performs document
              (.looking ⟨name, (memory.index.usagesOf name).1⟩ outer
                { memory with index := (memory.index.usagesOf name).2 }) outer
              (settle name (anyAtRoot
                (resolve (document.unvisited asked (path ++ [name])) (path ++ [name]))
                (memory.index.usagesOf name).1))
              { memory with index := (memory.index.usagesOf name).2 } := by
            apply performs_looking (fun _ member => usages ▸ member) _ (index.usagesOf name)
            intro fragment later memory user index
            apply ih fragment.name (List.mem_cons_of_mem _ (Document.fragmentName_mem user)) _ index
            rw [pathOf_cons, along]
          rw [Performs, exec_resolve_entered missing member,
            ← Document.unvisited_append_singleton]
          exact ⟨looking.1, .of_leadsTo (.single step) looking.2⟩
  | case2 path name visited =>
      cases missing : memory.answers.get? name with
      | some found => exact performs_remembered missing index
      | none =>
          -- A known name that cannot be visited is on the path.
          have met : name ∈ pathOf outer := by
            by_contra fresh
            exact visited (Document.mem_unvisited.mpr ⟨known, along ▸ fresh⟩)
          have step : (Moment.entering name outer memory).next? =
              some (.failing (pathOf outer ++ [name]) outer memory) := by
            simp only [Moment.next?, missing, if_pos met]
          rw [Performs, exec_resolve_visited missing visited, ← along]
          exact ⟨index, outer, .single step⟩

theorem EndsWith.exists_last {moment : Moment}
    {result : Except (List String) Bool × Reachability} (ends : EndsWith moment [] result) :
    ∃ last, moment.LeadsTo last ∧ last.outcome? = some result := by
  obtain ⟨_ | _, _⟩ := result
  · rcases ends with ⟨inner, leads⟩
    exact ⟨_, leads, rfl⟩
  · exact ⟨_, ends, rfl⟩

end Steps

/--
Whatever was asked before, the steps of a search come to one last moment, which has the outcome
of the search and to which every moment of it leads. At each of these moments no name is on the
path twice, the first is the one that was asked for and all others are names of fragments, so
that the path is no longer than there are names of fragments, and one.
-/
theorem search_ends (document : Document) (asked : List String) (name : String) :
    (∃ last : Moment, last.next? = none ∧
      last.outcome? = some (exec (isUsedAtRoot name) (after document asked)) ∧
      ∀ moment, (Moment.entering name [] (after document asked)).LeadsTo moment →
        moment.LeadsTo last) ∧
    ∀ moment, (Moment.entering name [] (after document asked)).LeadsTo moment →
      moment.path.Nodup ∧ (∀ first ∈ moment.path.head?, first = name) ∧
        (∀ other ∈ moment.path.tail, other ∈ document.fragmentNames) ∧
        moment.path.length ≤ document.fragmentNames.dedup.length + 1 := by
  have index := (consistent_after document asked).index
  constructor
  · have performs : Performs document (.entering name [] (after document asked)) []
        (resolve (document.unvisited name []) [] name) (after document asked) :=
      performs_entering List.mem_cons_self rfl index
    rcases performs.2.exists_last with ⟨last, leads, finished⟩
    rw [← exec_isUsedAtRoot index name] at finished
    have stops := Moment.next?_eq_none_of_outcome finished
    exact ⟨last, stops, finished, fun moment before => before.to_last leads stops⟩
  · intro moment leads
    have start : (Moment.entering name [] (after document asked)).Sound document name :=
      Moment.sound_entering (.start document name) .nil index
    have tracked := (start.of_leadsTo leads).tracked
    exact ⟨tracked.nodup, tracked.head, tracked.defined, tracked.length_le⟩

end PreviewLint.Reachability
