import PreviewLint.Document.Reader
import PreviewLint.Proofs.GraphQL.Beginnings

/-!
# The matches of the definitions of a text

A text of definitions of one kind matches its grammar as a series: one match for every
definition, each beginning after the blanks that follow the one before. A match stands for
exactly one definition, whose position is that of the offset at which the match begins.
-/

namespace PreviewLint

open GraphQL Reader

/-- The definitions that a match stands for in a text of definitions of a kind. -/
def Outline.Kind.read : Outline.Kind → (Nat → Position) → Match → Except ParseError (List Definition)
  | executable => executableDefinitionOf
  | typeSystem => typeSystemDefinitionOf

open Outline

/-- The kind of a definition. -/
def Definition.kind : Definition → Kind
  | operation _ | fragment _ => .executable
  | typeSystem _ => .typeSystem

namespace Cursor

/-- The place in a text of `size` characters at which it has the end `rest`. -/
def before (size : Nat) (rest : List Char) : Cursor := ⟨size - rest.length, rest⟩

theorem Within.eq_before {size : Nat} {cursor : Cursor} (within : cursor.Within size) :
    cursor = before size cursor.rest := by
  obtain ⟨offset, rest⟩ := cursor
  simp only [Within] at within
  simp only [before, mk.injEq, and_true]
  omega

theorem before_within {size : Nat} {rest : List Char} (fits : rest.length ≤ size) :
    (before size rest).Within size := by
  simp only [Within, before]
  omega

theorem Within.length_le {size : Nat} {cursor : Cursor} (within : cursor.Within size) :
    cursor.rest.length ≤ size := by
  simp only [Within] at within
  omega

end Cursor

/--
The matches of the definitions of a kind in the end `text` of a text of `size` characters,
where `text` begins with the first of them.
-/
inductive Matches (kind : Kind) (size : Nat) : List Char → List Match → Prop
  | done : Matches kind size [] []
  | next {text rest tree trees}
      (found : (grammar.call size kind.definition .spaced false (.before size text)).result =
        some ([tree], .before size rest))
      (more : Matches kind size (grammar.afterBlanks rest) trees) :
      Matches kind size text (tree :: trees)

/-- The matcher inside a rule that skips blanks. -/
abbrev runSpaced (size bound : Nat) (expression : Peg Rule) (cursor : Cursor) :
    Outcome Rule :=
  expression.run grammar.skip size (grammar.weight size) bound
    (fun other inner negation place _ => grammar.call size other inner negation place)
    .spaced false cursor

section Call

variable {size : Nat} {called : Rule} {cursor stop : Cursor} {trees : List Match}

theorem skip_eq_before (within : cursor.Within size) :
    grammar.skip cursor = .before size (grammar.afterBlanks cursor.rest) := by
  have skipped : (grammar.skip cursor).Within size := (orderly.skip_offset cursor).trans within
  rw [← orderly.skip_rest]
  exact skipped.eq_before

theorem reads_of_call (within : cursor.Within size)
    (found : (grammar.call size called .spaced false cursor).result = some (trees, stop)) :
    (Peg.rule called).Reads grammar .spaced cursor.rest (some stop.rest) ∧ stop.Within size := by
  have follows := orderly.call_follows size called .spaced false cursor within
  rw [found] at follows
  cases follows with
  | success reads stopWithin => exact ⟨reads, stopWithin⟩

theorem exists_call {rest : List Char} (within : cursor.Within size)
    (reads : (Peg.rule called).Reads grammar .spaced cursor.rest (some rest)) :
    ∃ tree, (grammar.call size called .spaced false cursor).result =
      some ([tree], .before size rest) := by
  have follows := orderly.call_follows size called .spaced false cursor within
  have shape := Grammar.result_call grammar size called .spaced false cursor
  generalize (grammar.call size called .spaced false cursor).result = found at follows shape
  cases follows with
  | failure refused => cases refused.unique reads
  | @success trees stop reads' stopWithin =>
      cases reads'.unique reads
      rcases Option.map_eq_some_iff.mp shape.symm with ⟨answer, _, same⟩
      cases same
      exact ⟨_, by rw [← stopWithin.eq_before]⟩

theorem exists_match (within : cursor.Within size)
    (found : (grammar.call size called .spaced false cursor).result = some (trees, stop)) :
    ∃ tree, trees = [tree] ∧ (grammar.call size called .spaced false cursor).result =
      some ([tree], .before size stop.rest) ∧ stop.Within size := by
  rcases reads_of_call within found with ⟨reads, stopWithin⟩
  rcases exists_call within reads with ⟨tree, same⟩
  have one := Option.some.inj (found.symm.trans same)
  exact ⟨tree, (Prod.mk.inj one).1, same, stopWithin⟩

/-- A match begins where its rule is called, and holds what the body of the rule matches. -/
theorem exists_children (spaced : grammar.spacing called = .spaced)
    (found : (grammar.call size called .spaced false cursor).result = some (trees, stop)) :
    ∃ children, trees = [.node called cursor stop.offset children] ∧
      (runSpaced size (grammar.weight size called cursor) (grammar.body called) cursor).result =
        some (children, stop) := by
  rw [Grammar.result_call, spaced] at found
  rcases Option.map_eq_some_iff.mp found with ⟨⟨inner, last⟩, ran, same⟩
  cases same
  exact ⟨inner, rfl, ran⟩

end Call

section Run

variable {size bound : Nat} {cursor stop : Cursor} {trees : List Match}

theorem call_of_run {called : Rule}
    (ran : (runSpaced size bound (.rule called) cursor).result = some (trees, stop)) :
    (grammar.call size called .spaced false cursor).result = some (trees, stop) := by
  simp only [runSpaced, Peg.run] at ran
  split at ran
  · exact ran
  · cases ran

theorem run_seq {first second : Peg Rule}
    (ran : (runSpaced size bound (first ++ second) cursor).result = some (trees, stop)) :
    ∃ before middle after, (runSpaced size bound first cursor).result = some (before, middle) ∧
      (runSpaced size bound second (grammar.skip middle)).result = some (after, stop) ∧
      trees = before ++ after := by
  change (Outcome.andThen _ _).result = _ at ran
  rw [Outcome.result_andThen] at ran
  rcases Option.bind_eq_some_iff.mp ran with ⟨⟨before, middle⟩, first, rest⟩
  rcases Option.map_eq_some_iff.mp rest with ⟨⟨after, last⟩, second, same⟩
  cases same
  exact ⟨before, middle, after, first, second, rfl⟩

theorem matches_repeated {kind : Kind} {count : Nat} (within : cursor.Within size)
    (ran : (Peg.repeated (fun middle =>
      runSpaced size bound (.rule kind.definition) (grammar.skip middle)) count cursor).result =
        some (trees, stop)) :
    stop.Within size ∧ ∀ later, Matches kind size (grammar.afterBlanks stop.rest) later →
      Matches kind size (grammar.afterBlanks cursor.rest) (trees ++ later) := by
  induction count generalizing cursor trees with
  | zero =>
      cases ran
      exact ⟨within, fun later more => more⟩
  | succ count ih =>
      simp only [Peg.repeated, Outcome.result_orElse, Outcome.result_andThen] at ran
      rcases Option.or_eq_some_iff.mp ran with again | ⟨_, last⟩
      · rcases Option.bind_eq_some_iff.mp again with ⟨⟨before, middle⟩, found, rest⟩
        rcases Option.map_eq_some_iff.mp rest with ⟨⟨after, last⟩, others, same⟩
        cases same
        have skipped : (grammar.skip cursor).Within size := orderly.place_within within .spaced
        rcases exists_match skipped (call_of_run found) with ⟨tree, rfl, call, middleWithin⟩
        rcases ih middleWithin others with ⟨stopWithin, series⟩
        rw [skip_eq_before within] at call
        exact ⟨stopWithin, fun later more => .next call (series later more)⟩
      · cases last
        exact ⟨within, fun later more => more⟩

theorem matches_many {kind : Kind} (within : cursor.Within size)
    (ran : (runSpaced size bound (Peg.rule kind.definition).many (grammar.skip cursor)).result =
      some (trees, stop)) :
    stop.Within size ∧ ∀ later, Matches kind size (grammar.afterBlanks stop.rest) later →
      Matches kind size (grammar.afterBlanks cursor.rest) (trees ++ later) := by
  have skipped : (grammar.skip cursor).Within size := orderly.place_within within .spaced
  simp only [runSpaced, Peg.run, Outcome.result_orElse, Outcome.result_andThen] at ran
  rcases Option.or_eq_some_iff.mp ran with again | ⟨_, last⟩
  · rcases Option.bind_eq_some_iff.mp again with ⟨⟨before, middle⟩, found, rest⟩
    rcases Option.map_eq_some_iff.mp rest with ⟨⟨after, last⟩, others, same⟩
    cases same
    rcases exists_match skipped (call_of_run found) with ⟨tree, rfl, call, middleWithin⟩
    rcases matches_repeated middleWithin others with ⟨stopWithin, series⟩
    rw [skip_eq_before within] at call
    exact ⟨stopWithin, fun later more => .next call (series later more)⟩
  · cases last
    refine ⟨skipped, fun later more => ?_⟩
    rw [orderly.skip_rest, afterBlanks_afterBlanks] at more
    exact more

end Run

/-- The end of the text holds nothing. -/
theorem call_endOfInput {size : Nat} {cursor stop : Cursor} {trees : List Match}
    (within : cursor.Within size)
    (found : (grammar.call size .endOfInput .spaced false cursor).result = some (trees, stop)) :
    cursor.rest = [] ∧ ∃ tree, trees = [tree] ∧ tree.children = [] := by
  constructor
  · have reads := (reads_of_call within found).1
    have body := Peg.reads_rule_iff.mp reads
    have missing := (Peg.reads_absent_iff.mp body).1
    have none := Peg.reads_char_none_iff.mp missing
    cases rest : cursor.rest with
    | nil => rfl
    | cons character more => simp [rest] at none
  · rcases exists_children rfl found with ⟨children, rfl, ran⟩
    refine ⟨_, rfl, ?_⟩
    have body : grammar.body .endOfInput = Peg.absent Peg.any := rfl
    simp only [body, runSpaced, Peg.run] at ran
    split at ran
    · cases ran
      rfl
    · cases ran

theorem body_document (kind : Kind) : grammar.body kind.document =
    Peg.empty ++ Peg.many1 (.rule kind.definition) ++ .rule .endOfInput := by
  cases kind <;> rfl

/-- The match of a text holds the matches of its definitions, and of its end. -/
theorem exists_matches {kind : Kind} {text : List Char} {root : Match}
    (parsed : grammar.parse kind.document text = .ok root) :
    ∃ trees final, root.children = trees ++ [final] ∧ final.children = [] ∧
      trees ≠ [] ∧ Matches kind text.length (grammar.afterBlanks text) trees := by
  have within := Cursor.ofText_within text
  simp only [Grammar.parse] at parsed
  split at parsed
  · next others stop found =>
      cases parsed
      rcases exists_children (by cases kind <;> rfl) found with ⟨children, same, ran⟩
      cases same
      rw [body_document] at ran
      rcases run_seq ran with ⟨definitions, middle, final, series, ended, rfl⟩
      rcases run_seq series with ⟨nothing, start, matched, begins, rounds, rfl⟩
      cases begins
      rcases run_seq rounds with ⟨first, after, more, matched, others, rfl⟩
      have skipped : (grammar.skip (.ofText text)).Within text.length :=
        orderly.place_within within .spaced
      rcases exists_match skipped (call_of_run matched) with ⟨tree, rfl, call, afterWithin⟩
      rcases matches_many afterWithin others with ⟨middleWithin, series⟩
      rcases call_endOfInput (orderly.place_within middleWithin .spaced) (call_of_run ended) with
        ⟨rest, last, rfl, none⟩
      rw [orderly.place_rest] at rest
      change grammar.afterBlanks middle.rest = [] at rest
      rw [skip_eq_before within] at call
      refine ⟨tree :: more, last, by simp [Tree.children], none, by simp, ?_⟩
      have whole := Matches.next call (series [] (rest ▸ .done))
      rw [List.append_nil] at whole
      exact whole
  · cases parsed

/-! ## One definition for every match -/

/-- The rules among which an expression chooses, if it does nothing else. -/
def alternatives : Peg Rule → List Rule
  | .rule called => [called]
  | .choice first second => alternatives first ++ alternatives second
  | _ => []

/-- Whether an expression does nothing but choose among rules. -/
def choosesRule : Peg Rule → Bool
  | .rule _ => true
  | .choice first second => choosesRule first && choosesRule second
  | _ => false

theorem call_of_run_choice {size bound : Nat} {cursor stop : Cursor} {trees : List Match}
    {expression : Peg Rule} (chooses : choosesRule expression)
    (ran : (runSpaced size bound expression cursor).result = some (trees, stop)) :
    ∃ called ∈ alternatives expression,
      (grammar.call size called .spaced false cursor).result = some (trees, stop) := by
  induction expression with
  | rule called => exact ⟨called, List.mem_singleton_self _, call_of_run ran⟩
  | choice first second firstCalls secondCalls =>
      rw [choosesRule, Bool.and_eq_true] at chooses
      simp only [runSpaced, Peg.run, Outcome.result_orElse] at ran
      rcases Option.or_eq_some_iff.mp ran with chosen | ⟨_, chosen⟩
      · rcases firstCalls chooses.1 chosen with ⟨called, member, call⟩
        exact ⟨called, List.mem_append_left _ member, call⟩
      · rcases secondCalls chooses.2 chosen with ⟨called, member, call⟩
        exact ⟨called, List.mem_append_right _ member, call⟩
  | _ => cases chooses

/-- A rule that chooses among rules holds one match, at the same place. -/
theorem exists_child {size : Nat} {called : Rule} {cursor stop : Cursor} {trees : List Match}
    (spaced : grammar.spacing called = .spaced) (chooses : choosesRule (grammar.body called))
    (others : ∀ other ∈ alternatives (grammar.body called), grammar.spacing other = .spaced)
    (found : (grammar.call size called .spaced false cursor).result = some (trees, stop)) :
    ∃ other ∈ alternatives (grammar.body called), ∃ children,
      trees = [.node called cursor stop.offset [.node other cursor stop.offset children]] ∧
      (grammar.call size other .spaced false cursor).result =
        some ([.node other cursor stop.offset children], stop) := by
  rcases exists_children spaced found with ⟨children, rfl, ran⟩
  rcases call_of_run_choice chooses ran with ⟨other, member, call⟩
  rcases exists_children (others other member) call with ⟨inner, rfl, _⟩
  exact ⟨other, member, inner, rfl, call⟩

section Read

variable {place : Nat → Position}

theorem bind_eq_ok {ε α β : Type} {first : Except ε α} {next : α → Except ε β} {result : β}
    (computed : (first >>= next) = .ok result) :
    ∃ middle, first = .ok middle ∧ next middle = .ok result := by
  cases first with
  | error problem => cases computed
  | ok middle => exact ⟨middle, rfl, computed⟩

theorem map_eq_ok {ε α β : Type} {first : Except ε α} {change : α → β} {result : β}
    (computed : first.map change = .ok result) :
    ∃ middle, first = .ok middle ∧ change middle = result := by
  cases first with
  | error problem => cases computed
  | ok middle => exact ⟨middle, rfl, Except.ok.inj computed⟩

theorem position_operationOf {tree : Match} {operation : Operation}
    (read : operationOf place tree = .ok operation) : operation.position = place tree.offset := by
  rcases bind_eq_ok read with ⟨variableDefinitions, _, read⟩
  rcases bind_eq_ok read with ⟨directives, _, read⟩
  rcases bind_eq_ok read with ⟨selections, _, read⟩
  cases read
  rfl

theorem position_fragmentOf {tree : Match} {fragment : Fragment}
    (read : fragmentOf place tree = .ok fragment) : fragment.position = place tree.offset := by
  rcases bind_eq_ok read with ⟨directives, _, read⟩
  rcases bind_eq_ok read with ⟨selections, _, read⟩
  cases read
  rfl

theorem mapM_singleton_eq_ok {ε α β : Type} {step : α → Except ε β} {item : α} {results : List β}
    (mapped : [item].mapM step = .ok results) :
    ∃ result, results = [result] ∧ step item = .ok result := by
  rw [List.mapM_cons, List.mapM_nil] at mapped
  rcases bind_eq_ok mapped with ⟨result, stepped, rest⟩
  cases rest
  exact ⟨result, rfl, stepped⟩

/-- A match stands for one definition, of its kind and at its place. -/
theorem read_match {kind : Kind} {size : Nat} {cursor stop : Cursor} {tree : Match}
    {definitions : List Definition}
    (found : (grammar.call size kind.definition .spaced false cursor).result = some ([tree], stop))
    (read : kind.read place tree = .ok definitions) :
    ∃ definition, definitions = [definition] ∧ definition.kind = kind ∧
      definition.position = place cursor.offset := by
  cases kind with
  | executable =>
      rcases exists_child (by rfl) (by rfl) (by decide) found with ⟨rule, member, children, same, _⟩
      cases same
      rcases mapM_singleton_eq_ok read with ⟨definition, rfl, one⟩
      refine ⟨definition, rfl, ?_⟩
      split at one
      · rcases map_eq_ok one with ⟨operation, defined, rfl⟩
        exact ⟨rfl, position_operationOf defined⟩
      · rcases map_eq_ok one with ⟨fragment, defined, rfl⟩
        exact ⟨rfl, position_fragmentOf defined⟩
  | typeSystem =>
      rcases exists_child (by rfl) (by rfl) (by decide) found with ⟨rule, member, children, same, call⟩
      cases same
      have one : ∃ definition, definitionsIn (.node .typeSystemDefinition cursor stop.offset
          [.node rule cursor stop.offset children]) = [definition] := by
        by_cases isType : rule = .typeDefinition
        · subst isType
          rcases exists_child (by rfl) (by rfl) (by decide) call with ⟨inner, _, parts, same, _⟩
          cases same
          exact ⟨_, rfl⟩
        · simp [definitionsIn, Tree.children, Tree.rule, isType]
      rcases one with ⟨inner, one⟩
      simp only [Kind.read, typeSystemDefinitionOf] at read
      rw [Kind.definition, one] at read
      rcases mapM_singleton_eq_ok read with ⟨definition, rfl, made⟩
      rcases bind_eq_ok made with ⟨_, _, made⟩
      split at made
      · rcases bind_eq_ok made with ⟨_, _, made⟩
        cases made
        exact ⟨_, rfl, rfl, rfl⟩
      · cases made
        exact ⟨_, rfl, rfl, rfl⟩

end Read

end PreviewLint
