import PreviewLint.Document.Parse
import PreviewLint.Proofs.Naming
import PreviewLint.Proofs.Source.Halves

/-!
# Definitions in the order of the text

A document sorts its definitions by position. Positions grow with offsets as long as a
carriage return between two places comes with a line feed between them: a carriage return on
its own goes back to the beginning of the line, and a later definition may then have the same
position as an earlier one, or a smaller one.
-/

namespace PreviewLint

open GraphQL Outline Reader

/-! ## Offsets of definitions -/

/-- The definitions that a match stands for, each with the offset at which the match begins. -/
def locatedIn (kind : Kind) (place : Nat → Position) (tree : Match) :
    Except ParseError (List (Nat × Definition)) :=
  (kind.read place tree).map fun definitions => definitions.map (tree.offset, ·)

/--
The definitions of a text of one kind, in the order of their matches and each with the offset
at which its match begins.
-/
def located (kind : Kind) (text : List Char) : Except ParseError (List (Nat × Definition)) :=
  match grammar.parse kind.document text with
  | .error furthest => .error (.noMatch (Position.ofFailure (text.take furthest)))
  | .ok tree =>
    (tree.children.mapM (locatedIn kind fun offset => Position.following (text.take offset))).map
      List.flatten

theorem exists_mapM_located {kind : Kind} {place : Nat → Position} {trees : List Match}
    {lists : List (List Definition)} (read : trees.mapM (kind.read place) = .ok lists) :
    ∃ found, trees.mapM (locatedIn kind place) = .ok found ∧
      found.flatten.map Prod.snd = lists.flatten := by
  induction trees generalizing lists with
  | nil =>
      cases read
      exact ⟨[], rfl, rfl⟩
  | cons tree trees ih =>
      rw [List.mapM_cons] at read
      rcases bind_eq_ok read with ⟨definitions, here, rest⟩
      rcases bind_eq_ok rest with ⟨others, there, same⟩
      cases same
      rcases ih there with ⟨found, foundThere, same⟩
      refine ⟨definitions.map (tree.offset, ·) :: found, ?_, ?_⟩
      · rw [List.mapM_cons, locatedIn, here, foundThere]
        rfl
      · simp [same, Function.comp_def]

theorem exists_located {kind : Kind} {text : List Char} {definitions : List Definition}
    (read : definitionsOf text kind.document kind.read = .ok definitions) :
    ∃ found, located kind text = .ok found ∧ found.map Prod.snd = definitions := by
  rw [definitionsOf] at read
  rw [located]
  cases parsed : grammar.parse kind.document text with
  | error furthest =>
      rw [parsed] at read
      cases read
  | ok tree =>
      rw [parsed] at read
      rcases bind_eq_ok read with ⟨lists, listed, same⟩
      cases same
      rcases exists_mapM_located listed with ⟨found, foundHere, same⟩
      exact ⟨found.flatten, by simp only [foundHere]; rfl, same⟩

/-- What is known of a definition and the offset of its match in a text. -/
structure Stands (kind : Kind) (text : List Char) (entry : Nat × Definition) : Prop where
  kind_eq : entry.2.kind = kind
  position_eq : entry.2.position = Position.following (text.take entry.1)
  begins : ∃ word ∈ kind.beginnings, word.toList <+: text.drop entry.1

theorem length_lt_of_reads {kind : Kind} {spacing : Spacing} {text rest : List Char}
    (reads : (Peg.rule kind.definition).Reads grammar spacing text (some rest)) :
    rest.length < text.length := by
  rcases Nat.lt_or_ge rest.length text.length with shorter | longer
  · exact shorter
  · have empty := orderly.nullable_of_reads reads longer
    cases kind <;> cases empty

/-- The matches of a text stand at growing offsets. -/
theorem Matches.located {kind : Kind} {whole text : List Char} {trees : List Match}
    {found : List (List (Nat × Definition))} (series : Matches kind whole.length text trees)
    (suffix : text <:+ whole) (solid : grammar.afterBlanks text = text)
    (read : trees.mapM (locatedIn kind fun offset => Position.following (whole.take offset)) =
      .ok found) :
    found.flatten.Pairwise (·.1 < ·.1) ∧
      ∀ entry ∈ found.flatten, whole.length - text.length ≤ entry.1 ∧ Stands kind whole entry := by
  induction series generalizing found with
  | done =>
      cases read
      exact ⟨.nil, by simp⟩
  | @next text rest tree trees call _ ih =>
      rw [List.mapM_cons] at read
      rcases bind_eq_ok read with ⟨here, hereRead, others⟩
      rcases bind_eq_ok others with ⟨there, thereRead, same⟩
      cases same
      have within := Cursor.before_within suffix.length_le
      have reads := (reads_of_call within call).1
      have shorter := length_lt_of_reads reads
      have restSuffix := orderly.suffix_of_reads reads
      have gapSuffix := orderly.afterBlanks_suffix rest
      rcases ih (gapSuffix.trans (restSuffix.trans suffix)) (afterBlanks_afterBlanks rest)
        thereRead with ⟨ordered, bounds⟩
      rcases map_eq_ok hereRead with ⟨definitions, defined, rfl⟩
      rcases read_match call defined with ⟨definition, rfl, kind_eq, position_eq⟩
      rcases exists_children (by cases kind <;> rfl) call with ⟨children, same, _⟩
      cases same
      have offset : (Cursor.before whole.length text).offset = whole.length - text.length := rfl
      simp only [Tree.offset, List.map_cons, List.map_nil, List.flatten_cons, List.cons_append,
        List.nil_append, List.pairwise_cons, List.mem_cons, offset] at position_eq ⊢
      have gapLength := gapSuffix.length_le
      have fits := suffix.length_le
      refine ⟨⟨fun entry member => ?_, ordered⟩, fun entry member => ?_⟩
      · have bound := (bounds entry member).1
        simp only [Cursor.before] at *
        omega
      · rcases member with rfl | member
        · refine ⟨Nat.le_refl _, kind_eq, position_eq, ?_⟩
          dsimp only
          rw [← List.suffix_iff_eq_drop.mp suffix]
          exact Kind.begins solid reads
        · refine ⟨?_, (bounds entry member).2⟩
          have bound := (bounds entry member).1
          simp only [Cursor.before] at *
          omega

theorem locatedIn_of_children_nil {kind : Kind} {place : Nat → Position} {tree : Match}
    (none : tree.children = []) : locatedIn kind place tree = .ok [] := by
  cases kind with
  | executable => simp [locatedIn, Kind.read, executableDefinitionOf, none, pure, Except.pure, Except.map]
  | typeSystem =>
      simp [locatedIn, Kind.read, typeSystemDefinitionOf, definitionsIn, none, pure, Except.pure,
        Except.map]

theorem matches_of_located {kind : Kind} {text : List Char} {found : List (Nat × Definition)}
    (read : located kind text = .ok found) :
    ∃ trees lists, trees ≠ [] ∧ Matches kind text.length (grammar.afterBlanks text) trees ∧
      trees.mapM (locatedIn kind fun offset => Position.following (text.take offset)) = .ok lists ∧
      found = lists.flatten := by
  rw [located] at read
  cases parsed : grammar.parse kind.document text with
  | error furthest =>
      rw [parsed] at read
      cases read
  | ok root =>
      rw [parsed] at read
      rcases map_eq_ok read with ⟨lists, listed, rfl⟩
      rcases exists_matches parsed with ⟨trees, final, children, none, some, series⟩
      rw [children, List.mapM_append] at listed
      rcases bind_eq_ok listed with ⟨before, matched, rest⟩
      rcases bind_eq_ok rest with ⟨after, last, same⟩
      cases same
      rcases mapM_singleton_eq_ok last with ⟨nothing, rfl, ended⟩
      rw [locatedIn_of_children_nil none] at ended
      cases ended
      refine ⟨trees, before, some, series, matched, ?_⟩
      simp only [List.flatten_append, List.flatten_cons, List.flatten_nil, List.append_nil]

/-- The definitions of a text of one kind stand at growing offsets. -/
theorem stands_of_located {kind : Kind} {text : List Char} {found : List (Nat × Definition)}
    (read : located kind text = .ok found) :
    found.Pairwise (·.1 < ·.1) ∧ ∀ entry ∈ found, Stands kind text entry := by
  rcases matches_of_located read with ⟨trees, lists, _, series, matched, rfl⟩
  have placed := series.located (orderly.afterBlanks_suffix text) (afterBlanks_afterBlanks text)
    matched
  exact ⟨placed.1, fun entry member => (placed.2 entry member).2⟩

/-! ## Growing positions -/

namespace Position

theorem line_foldl_advance (position : Position) (text : List Char) :
    position.line ≤ (text.foldl advance position).line := by
  induction text generalizing position with
  | nil => exact Nat.le_refl _
  | cons character rest ih =>
      refine Nat.le_trans ?_ (ih (advance position character))
      simp only [advance]
      split
      · exact Nat.le_succ _
      · split <;> exact Nat.le_refl _

/-- A line feed begins a new line, whatever stands around it. -/
theorem line_lt_foldl_advance {position : Position} {text : List Char} (feed : '\n' ∈ text) :
    position.line < (text.foldl advance position).line := by
  induction text generalizing position with
  | nil => cases feed
  | cons character rest ih =>
      rcases List.mem_cons.mp feed with rfl | later
      · exact Nat.lt_of_lt_of_le (Nat.lt_succ_self _) (line_foldl_advance (advance position '\n') rest)
      · have further : (advance position character).line <
            (rest.foldl advance (advance position character)).line := ih later
        exact Nat.lt_of_le_of_lt (line_foldl_advance position [character]) further

theorem foldl_advance_of_no_line_end {position : Position} {text : List Char}
    (inside : '\n' ∉ text ∧ '\r' ∉ text) :
    text.foldl advance position = ⟨position.line, position.column + text.length⟩ := by
  induction text generalizing position with
  | nil => rfl
  | cons character rest ih =>
      simp only [List.mem_cons, not_or] at inside
      have next : advance position character = ⟨position.line, position.column + 1⟩ := by
        rw [advance, if_neg (Ne.symm inside.1.1), if_neg (Ne.symm inside.2.1)]
      rw [List.foldl_cons, next, ih ⟨inside.1.2, inside.2.2⟩]
      simp only [List.length_cons, mk.injEq, true_and]
      omega

theorem lt_foldl_advance {position : Position} {text : List Char} (some : text ≠ [])
    (ends : '\r' ∈ text → '\n' ∈ text) : position < text.foldl advance position := by
  by_cases feed : '\n' ∈ text
  · exact Or.inl (line_lt_foldl_advance feed)
  · have lengths := List.length_pos_iff.mpr some
    rw [foldl_advance_of_no_line_end ⟨feed, fun returns => feed (ends returns)⟩]
    exact Or.inr ⟨rfl, Nat.lt_add_of_pos_right lengths⟩

/-- The text between two offsets. -/
def between (text : List Char) (first second : Nat) : List Char := (text.take second).drop first

/-- A later place has a later position, unless a carriage return without a line feed lies between. -/
theorem following_lt {text : List Char} {first second : Nat} (before : first < second)
    (fits : second ≤ text.length)
    (ends : '\r' ∈ between text first second → '\n' ∈ between text first second) :
    following (text.take first) < following (text.take second) := by
  have split : text.take second = text.take first ++ between text first second := by
    have whole := List.take_append_drop first (text.take second)
    rw [List.take_take, Nat.min_eq_left (Nat.le_of_lt before)] at whole
    exact whole.symm
  have some : between text first second ≠ [] := by
    apply List.ne_nil_of_length_pos
    rw [between, List.length_drop, List.length_take]
    omega
  rw [split]
  unfold following
  rw [List.foldl_append]
  exact lt_foldl_advance some ends

end Position

/-! ## The order of a document -/

namespace Position

theorem le_iff {first second : Position} : first ≤ second ↔
    first.line < second.line ∨ (first.line = second.line ∧ first.column ≤ second.column) := Iff.rfl

theorem lt_iff {first second : Position} : first < second ↔
    first.line < second.line ∨ (first.line = second.line ∧ first.column < second.column) := Iff.rfl

theorem lt_of_le_of_ne {first second : Position} (before : first ≤ second)
    (apart : first ≠ second) : first < second := by
  obtain ⟨line, column⟩ := first
  obtain ⟨line', column'⟩ := second
  simp only [le_iff, lt_iff, ne_eq, mk.injEq, not_and] at *
  omega

theorem ne_of_lt {first second : Position} (before : first < second) : first ≠ second := by
  rintro rfl
  rw [lt_iff] at before
  omega

theorem lt_asymm {first second : Position} (before : first < second) : ¬second < first := by
  rw [lt_iff] at *
  omega

end Position

namespace Document

theorem ordered_trans (first second third : Definition)
    (before : decide (first.position ≤ second.position) = true)
    (after : decide (second.position ≤ third.position) = true) :
    decide (first.position ≤ third.position) = true := by
  simp only [decide_eq_true_eq, Position.le_iff] at *
  omega

theorem ordered_total (first second : Definition) :
    (decide (first.position ≤ second.position) || decide (second.position ≤ first.position)) = true := by
  simp only [Bool.or_eq_true, decide_eq_true_eq, Position.le_iff]
  omega

theorem sorted_ofDefinitions (definitions : List Definition) :
    (ofDefinitions definitions).definitions.Pairwise (·.position ≤ ·.position) := by
  have sorted : (ofDefinitions definitions).definitions.Pairwise fun first second =>
      decide (first.position ≤ second.position) = true :=
    List.pairwise_mergeSort ordered_trans ordered_total _
  exact sorted.imp of_decide_eq_true

theorem perm_ofDefinitions (definitions : List Definition) :
    (ofDefinitions definitions).definitions.Perm definitions :=
  List.mergeSort_perm _ _

/-- Definitions at growing positions are what sorting them, given in any order, leads to. -/
theorem ofDefinitions_eq {definitions sorted : List Definition} (same : definitions.Perm sorted)
    (grows : sorted.Pairwise (·.position < ·.position)) :
    (ofDefinitions definitions).definitions = sorted := by
  have perm := (perm_ofDefinitions definitions).trans same
  have apart := perm.symm.pairwise (grows.imp Position.ne_of_lt) Ne.symm
  have strict := ((sorted_ofDefinitions definitions).and apart).imp fun both =>
    Position.lt_of_le_of_ne both.1 both.2
  refine List.Perm.eq_of_pairwise (fun first second _ _ before after => ?_) strict grows perm
  exact absurd after (Position.lt_asymm before)

theorem perm_gathered_filterMap {definitions : List Definition}
    (executable : ∀ definition ∈ definitions, definition.kind = .executable) :
    (gathered (definitions.filterMap Definition.operation?)
      (definitions.filterMap Definition.fragment?)).Perm definitions := by
  induction definitions with
  | nil => exact .nil
  | cons definition definitions ih =>
      have rest := ih fun other member => executable other (List.mem_cons_of_mem _ member)
      cases definition with
      | operation operation => exact rest.cons _
      | fragment fragment => exact List.perm_middle.trans (rest.cons _)
      | typeSystem => cases executable _ List.mem_cons_self

end Document

theorem mapError_eq_ok {ε ε' α : Type} {computed : Except ε α} {change : ε → ε'} {result : α}
    (mapped : computed.mapError change = .ok result) : computed = .ok result := by
  cases computed with
  | error problem => cases mapped
  | ok other =>
      cases mapped
      rfl

/-- A text of executable definitions gathers its operations before its fragments. -/
theorem executable_eq_ok {text : List Char} {document : Document}
    (read : Reader.executable text = .ok document) :
    ∃ found, located .executable text = .ok found ∧
      document = .ofDefinitions
        (Document.gathered ((found.map Prod.snd).filterMap Definition.operation?)
          ((found.map Prod.snd).filterMap Definition.fragment?)) := by
  rcases bind_eq_ok read with ⟨definitions, readable, rest⟩
  rcases bind_eq_ok rest with ⟨_, passed, rest⟩
  have distinct := DistinctNames.nil.of_checkNames passed
  have readHere : definitionsOf text Kind.executable.document Kind.executable.read =
    .ok definitions := mapError_eq_ok readable
  rcases exists_located readHere with ⟨found, foundHere, rfl⟩
  dsimp only at rest
  split at rest
  · cases rest
  · cases rest
    exact ⟨found, foundHere, congrArg _ (Executable.definitions_ofDefinitions distinct)⟩

theorem perm_of_located {text : List Char} {found : List (Nat × Definition)}
    (read : located .executable text = .ok found) :
    (Document.gathered ((found.map Prod.snd).filterMap Definition.operation?)
      ((found.map Prod.snd).filterMap Definition.fragment?)).Perm (found.map Prod.snd) := by
  apply Document.perm_gathered_filterMap
  intro definition member
  rcases List.mem_map.mp member with ⟨entry, listed, rfl⟩
  exact ((stands_of_located read).2 entry listed).kind_eq

theorem typeSystem_eq_ok {text : List Char} {document : Document}
    (read : Reader.typeSystem text = .ok document) :
    ∃ found, located .typeSystem text = .ok found ∧
      document = .ofDefinitions (found.map Prod.snd) := by
  rcases bind_eq_ok read with ⟨definitions, readable, rest⟩
  have readHere : definitionsOf text Kind.typeSystem.document Kind.typeSystem.read =
    .ok definitions := mapError_eq_ok readable
  rcases exists_located readHere with ⟨found, foundHere, rfl⟩
  cases rest
  exact ⟨found, foundHere, rfl⟩

/--
The definitions of a text with the offsets at which they stand, read from the text as a whole
or from its two halves.
-/
inductive Placed (text : List Char) : List (Nat × Definition) → Prop
  | whole {kind found} (read : located kind text = .ok found) : Placed text found
  | halves {executable typeSystem found}
      (read : located .executable ((Outline.ofText text).half .executable) = .ok executable)
      (read' : located .typeSystem ((Outline.ofText text).half .typeSystem) = .ok typeSystem)
      (together : found.Perm (executable ++ typeSystem)) : Placed text found

theorem Stands.lt_length {kind : Kind} {text : List Char} {entry : Nat × Definition}
    (stands : Stands kind text entry) : entry.1 < text.length := by
  rcases stands.begins with ⟨word, member, begins⟩
  have longer : ∀ word ∈ kind.beginnings, 0 < word.toList.length := by
    cases kind <;> decide
  have length := begins.length_le
  have some := longer word member
  rw [List.length_drop] at length
  omega

theorem prefix_of_kept {word kept text : List Char} (same : List.Forall₂ Kept kept text)
    (solid : ∀ character ∈ word, isSolid character) (begins : word <+: kept) : word <+: text := by
  induction same generalizing word with
  | nil => exact begins
  | @cons first original others rest here _ ih =>
      cases word with
      | nil => exact List.nil_prefix
      | cons head tail =>
          obtain ⟨rfl, more⟩ := List.cons_prefix_cons.mp begins
          have kept : head = original := by
            rcases here with same | ⟨_, rfl⟩
            · exact same
            · cases solid ' ' List.mem_cons_self
          subst kept
          rw [List.prefix_cons_inj]
          exact ih (fun _ member => solid _ (List.mem_cons_of_mem _ member)) more

/-- A definition that stands in a half stands in the text. -/
theorem Stands.of_half {kind : Kind} {text : List Char} {entry : Nat × Definition}
    (stands : Stands kind ((Outline.ofText text).half kind) entry) : Stands kind text entry := by
  have kept := kept_half_ofText text kind
  refine ⟨stands.kind_eq, ?_, ?_⟩
  · rw [stands.position_eq]
    exact Position.following_of_kept (List.forall₂_take entry.1 kept)
  · rcases stands.begins with ⟨word, member, begins⟩
    have solid : ∀ word ∈ kind.beginnings, word.toList.all isSolid := by
      cases kind <;> decide
    exact ⟨word, member, prefix_of_kept (List.forall₂_drop entry.1 kept)
      (List.all_eq_true.mp (solid word member)) begins⟩

/-- Sorts entries by offset. -/
theorem exists_sorted {entries : List (Nat × Definition)} (apart : entries.Pairwise (·.1 ≠ ·.1)) :
    ∃ sorted : List (Nat × Definition), sorted.Perm entries ∧ sorted.Pairwise (·.1 < ·.1) := by
  have perm := List.mergeSort_perm entries fun first second => decide (first.1 ≤ second.1)
  refine ⟨_, perm, ?_⟩
  have sorted : (entries.mergeSort fun first second => decide (first.1 ≤ second.1)).Pairwise
      fun first second => decide (first.1 ≤ second.1) = true := by
    apply List.pairwise_mergeSort
    · intro first second third before after
      simp only [decide_eq_true_eq] at *
      omega
    · intro first second
      simp only [Bool.or_eq_true, decide_eq_true_eq]
      omega
  refine (sorted.and (perm.symm.pairwise apart Ne.symm)).imp fun both => ?_
  exact Nat.lt_of_le_of_ne (of_decide_eq_true both.1) both.2

namespace Document

/-- What the reading of a text says of the order of its definitions. -/
def ListsPlaced (text : List Char) (document : Document) : Prop :=
  ∃ found definitions, Placed text found ∧ found.Pairwise (·.1 < ·.1) ∧
    (∀ entry ∈ found, Stands entry.2.kind text entry) ∧
    document = .ofDefinitions definitions ∧ definitions.Perm (found.map Prod.snd)

theorem listsPlaced_of_located {kind : Kind} {text : List Char} {found : List (Nat × Definition)}
    {definitions : List Definition} (read : located kind text = .ok found)
    (perm : definitions.Perm (found.map Prod.snd)) :
    ListsPlaced text (.ofDefinitions definitions) := by
  rcases stands_of_located read with ⟨grows, stands⟩
  refine ⟨found, definitions, .whole read, grows, fun entry member => ?_, rfl, perm⟩
  have here := stands entry member
  rw [here.kind_eq]
  exact here

/-- Two texts that are read together give the definitions of both. -/
theorem ofHalves_eq_ok {executable typeSystem : List Char} {document : Document}
    (read : ofHalves executable typeSystem = .ok document) :
    ∃ one other definitions, located .executable executable = .ok one ∧
      located .typeSystem typeSystem = .ok other ∧ document = .ofDefinitions definitions ∧
      definitions.Perm ((one ++ other).map Prod.snd) := by
  rcases bind_eq_ok read with ⟨executable, executableRead, rest⟩
  rcases bind_eq_ok rest with ⟨typeSystem, typeSystemRead, same⟩
  cases same
  rcases executable_eq_ok executableRead with ⟨one, oneHere, rfl⟩
  rcases typeSystem_eq_ok typeSystemRead with ⟨other, otherHere, rfl⟩
  refine ⟨one, other, _, oneHere, otherHere, rfl, ?_⟩
  rw [List.map_append]
  apply List.Perm.append
  · exact (perm_ofDefinitions _).trans (perm_of_located oneHere)
  · exact perm_ofDefinitions _

theorem listsPlaced_of_halves {text : List Char} {document : Document}
    (read : ofHalves ((Outline.ofText text).half .executable) ((Outline.ofText text).half .typeSystem) =
      .ok document) : ListsPlaced text document := by
  rcases ofHalves_eq_ok read with ⟨one, other, definitions, oneHere, otherHere, rfl, together⟩
  rcases stands_of_located oneHere with ⟨oneGrows, oneStands⟩
  rcases stands_of_located otherHere with ⟨otherGrows, otherStands⟩
  have apart : (one ++ other).Pairwise (·.1 ≠ ·.1) := by
    refine List.pairwise_append.mpr ⟨oneGrows.imp Nat.ne_of_lt, otherGrows.imp Nat.ne_of_lt, ?_⟩
    intro first member second member' tie
    have begins := (oneStands first member).begins
    rw [tie] at begins
    exact not_begins_of_shared (List.forall₂_drop second.1 (shared_halves _)) begins
      (otherStands second member').begins
  rcases exists_sorted apart with ⟨found, perm, grows⟩
  refine ⟨found, definitions, .halves oneHere otherHere perm, grows, fun entry member => ?_, rfl,
    together.trans (perm.map Prod.snd).symm⟩
  rcases List.mem_append.mp (perm.mem_iff.mp member) with listed | listed
  · rw [(oneStands entry listed).kind_eq]
    exact (oneStands entry listed).of_half
  · rw [(otherStands entry listed).kind_eq]
    exact (otherStands entry listed).of_half

/-- A document that was read sorts the definitions that stand in its text. -/
theorem listsPlaced_of_parse {source : String} {document : Document}
    (parsed : parse source = .ok document) : ListsPlaced source.toList document := by
  rw [parse] at parsed
  split at parsed
  · next read =>
      cases parsed
      rcases executable_eq_ok read with ⟨found, foundHere, rfl⟩
      exact listsPlaced_of_located foundHere (perm_of_located foundHere)
  · cases parsed
  · rw [ofMixed] at parsed
    split at parsed
    · next read =>
        cases parsed
        rcases typeSystem_eq_ok read with ⟨found, foundHere, rfl⟩
        exact listsPlaced_of_located foundHere (List.Perm.refl _)
    · dsimp only at parsed
      split at parsed
      · exact listsPlaced_of_halves parsed
      · cases parsed

/-- Where every carriage return precedes a line feed, both stand before the next definition. -/
theorem ends_of_paired {text : List Char} {first : Nat} {entry : Nat × Definition} {kind : Kind}
    (paired : ∀ index < text.length, text[index]? = some '\r' → text[index + 1]? = some '\n')
    (stands : Stands kind text entry) (returns : '\r' ∈ Position.between text first entry.1) :
    '\n' ∈ Position.between text first entry.1 := by
  rcases List.append_of_mem returns with ⟨inside, later, split⟩
  have whole : ∃ before, text = before ++ '\r' :: (later ++ text.drop entry.1) := by
    have upTo := List.take_append_drop first (text.take entry.1)
    have all := List.take_append_drop entry.1 text
    change (text.take entry.1).drop first = _ at split
    rw [split] at upTo
    rw [← upTo] at all
    exact ⟨(text.take entry.1).take first ++ inside, by simpa using all.symm⟩
  rcases whole with ⟨before, whole⟩
  have feed : (later ++ text.drop entry.1).head? = some '\n' := by
    have next := paired before.length (by rw [whole]; simp) (by rw [whole]; simp)
    rw [whole, List.getElem?_append_right (Nat.le_add_right _ 1), Nat.add_sub_cancel_left,
      List.getElem?_cons_succ] at next
    rw [List.head?_eq_getElem?]
    exact next
  rw [split]
  cases later with
  | nil =>
      rcases stands.begins with ⟨word, member, begins⟩
      have solid : ∀ word ∈ kind.beginnings, word.toList.head? ≠ none ∧
          word.toList.head? ≠ some '\n' := by
        cases kind <;> decide
      rcases begins with ⟨rest, same⟩
      rw [List.nil_append, ← same] at feed
      cases head : word.toList with
      | nil => exact absurd (by rw [head]; rfl) (solid word member).1
      | cons character more =>
          rw [head, List.cons_append, List.head?_cons] at feed
          exact absurd (by rw [head, List.head?_cons, feed]) (solid word member).2
  | cons character more =>
      cases feed
      simp

/--
A document that was read has the definitions that stand in its text. It lists them by their
offsets, in whatever order they were gathered, if between any two of them a carriage return
comes with a line feed.
-/
theorem definitions_by_offset {source : String} {document : Document}
    (parsed : parse source = .ok document) :
    ∃ found, Placed source.toList found ∧ found.Pairwise (·.1 < ·.1) ∧
      (∀ entry ∈ found, Stands entry.2.kind source.toList entry) ∧
      document.definitions.Perm (found.map Prod.snd) ∧
      ((found.Pairwise fun first second =>
          '\r' ∈ Position.between source.toList first.1 second.1 →
            '\n' ∈ Position.between source.toList first.1 second.1) →
        document.definitions = found.map Prod.snd ∧
          ∀ gathered : List Definition, gathered.Perm document.definitions →
            (ofDefinitions gathered).definitions = found.map Prod.snd) := by
  rcases listsPlaced_of_parse parsed with ⟨found, definitions, placed, grows, stands, rfl, perm⟩
  have same := (perm_ofDefinitions definitions).trans perm
  refine ⟨found, placed, grows, stands, same, fun ends => ?_⟩
  have positions : (found.map Prod.snd).Pairwise (·.position < ·.position) := by
    rw [List.pairwise_map]
    refine (grows.and ends).imp_of_mem fun {first second} member member' both => ?_
    have here := stands first member
    have there := stands second member'
    rw [here.position_eq, there.position_eq]
    exact Position.following_lt both.1 (Nat.le_of_lt there.lt_length) both.2
  constructor
  · exact ofDefinitions_eq perm positions
  · intro gathered gatheredPerm
    exact ofDefinitions_eq (gatheredPerm.trans same) positions

set_option maxRecDepth 100000 in
/-- Lines that end in either way keep the definitions of both kinds in the order of the text. -/
theorem mixed_lines_by_offset :
    ∃ document found, parse "type T { a: Int }\r\nquery Q { b }\n" = .ok document ∧
      Placed "type T { a: Int }\r\nquery Q { b }\n".toList found ∧
      found.Pairwise (·.1 < ·.1) ∧ document.definitions = found.map Prod.snd := by
  have read : (parse "type T { a: Int }\r\nquery Q { b }\n").toOption.isSome := by decide +kernel
  have paired : ∀ index < "type T { a: Int }\r\nquery Q { b }\n".toList.length,
      "type T { a: Int }\r\nquery Q { b }\n".toList[index]? = some '\r' →
        "type T { a: Int }\r\nquery Q { b }\n".toList[index + 1]? = some '\n' := by
    decide +kernel
  generalize "type T { a: Int }\r\nquery Q { b }\n" = text at read paired ⊢
  cases parsed : parse text with
  | error problem =>
      rw [parsed] at read
      cases read
  | ok document =>
      rcases definitions_by_offset parsed with ⟨found, placed, grows, stands, _, ordered⟩
      refine ⟨document, found, rfl, placed, grows, (ordered ?_).1⟩
      refine grows.imp_of_mem fun {first second} _ member' _ => ?_
      exact ends_of_paired paired (stands second member')

/-- Two definitions, of which the second is the first on its line once the return is counted. -/
def returned : String := "fragment F on T { a }\r{ b }"

set_option maxRecDepth 100000 in
/-- After a carriage return on its own, a query is listed before a fragment that precedes it. -/
theorem returned_reversed : ∃ document found, parse returned = .ok document ∧
    located .executable returned.toList = .ok found ∧ found.map Prod.fst = [0, 22] ∧
    document.definitions = (found.map Prod.snd).reverse ∧
    found.map (·.2.fragment?.isSome) = [true, false] := by
  have read : (Reader.executable returned.toList).toOption.isSome := by decide +kernel
  have placed : (located .executable returned.toList).toOption.map (·.map fun entry =>
      (entry.1, entry.2.fragment?.isSome, entry.2.position)) =
        some [(0, true, ⟨1, 1⟩), (22, false, ⟨1, 1⟩)] := by decide +kernel
  cases parsed : Reader.executable returned.toList with
  | error problem =>
      rw [parsed] at read
      cases read
  | ok document =>
      rcases executable_eq_ok parsed with ⟨found, foundHere, rfl⟩
      rw [foundHere] at placed
      obtain ⟨first, others, rfl, firstIs, othersAre⟩ :=
        List.map_eq_cons_iff.mp (Option.some.inj placed)
      obtain ⟨second, none, rfl, secondIs, noneIs⟩ := List.map_eq_cons_iff.mp othersAre
      cases List.map_eq_nil_iff.mp noneIs
      have kinds := (stands_of_located foundHere).2
      obtain ⟨start, fragment⟩ := first
      obtain ⟨later, operation⟩ := second
      have isOperation := (kinds (later, operation) (by simp)).kind_eq
      simp only [Prod.mk.injEq] at firstIs secondIs
      cases fragment with
      | fragment fragment =>
          cases operation with
          | operation operation =>
              refine ⟨_, _, by rw [parse, parsed], foundHere, ?_, ?_, rfl⟩
              · simp [firstIs, secondIs]
              · -- Sorting is stable, and the operation was gathered first.
                have before : (Definition.operation operation).position ≤
                    (Definition.fragment fragment).position := by
                  rw [secondIs.2.2, firstIs.2.2]
                  exact Or.inr ⟨rfl, Nat.le_refl _⟩
                exact List.mergeSort_of_pairwise (List.pairwise_pair.mpr (decide_eq_true before))
          | fragment fragment => cases secondIs.2.1
          | typeSystem definition => cases isOperation
      | operation operation => cases firstIs.2.1
      | typeSystem definition => cases firstIs.2.1

end Document

end PreviewLint