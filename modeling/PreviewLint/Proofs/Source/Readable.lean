import PreviewLint.Proofs.Source.Division

/-!
# Texts that match their grammar

A row of definitions of one kind matches the grammar of its kind, and a text is a row in one way
only. Once a text has matched, the reader may still refuse it, but not for its syntax.
-/

namespace PreviewLint

open GraphQL Outline Peg Reader

/-! ## Rows of one kind -/

section Row

variable {kind : Kind} {offset : Nat} {text : List Char} {pieces : List Piece}

/-- No definition is read from nothing. -/
theorem refuses_nil (kind : Kind) : (rule kind.definition).Reads grammar .spaced [] none := by
  have progress : (rule kind.definition).progresses mayBeEmpty := by cases kind <;> rfl
  rcases orderly.exists_reads .spaced _ progress [] with ⟨answer, reads⟩
  cases answer with
  | none => exact reads
  | some rest => exact absurd (length_lt_of_reads reads) (Nat.not_lt_zero _)

theorem gap_of_taken {after middle : List Char}
    (ends : middle = after ∨ middle = grammar.afterBlanks after) :
    grammar.gap .spaced middle = grammar.afterBlanks after := by
  rcases ends with rfl | rfl
  · rfl
  · exact afterBlanks_afterBlanks after

/-- The definitions of a row are read one after the other, up to the blanks at its end. -/
theorem reads_many (row : Row Taken offset text pieces) (same : ∀ piece ∈ pieces, piece.kind = kind) :
    ∃ rest, (many (rule kind.definition)).Reads grammar .spaced (grammar.afterBlanks text) (some rest) ∧
      grammar.afterBlanks rest = [] := by
  induction row with
  | done blank =>
      rw [blank]
      exact ⟨[], .many_none (refuses_nil kind), rfl⟩
  | @next offset gap other text after pieces ignored here more ih =>
      rw [List.forall_mem_cons] at same
      obtain ⟨rfl, others⟩ := same
      rcases here.reads with ⟨middle, present, ends⟩
      rcases ih others with ⟨rest, rounds, blank⟩
      rw [ignored.afterBlanks_append, here.solid]
      rw [← gap_of_taken ends] at rounds
      have again := rounds
      cases rounds with
      | many_none missing =>
          exact ⟨middle, .many_last present missing, (afterBlanks_afterBlanks middle).symm.trans blank⟩
      | many_last next missing => exact ⟨rest, .many_more present next again, blank⟩
      | many_more next => exact ⟨rest, .many_more present next again, blank⟩

/-- A row of definitions of one kind matches the grammar. -/
theorem exists_parse {piece : Piece} (row : Row Taken offset text (piece :: pieces))
    (same : ∀ other ∈ piece :: pieces, other.kind = kind) :
    ∃ root, grammar.parse kind.document text = .ok root := by
  have reads : ∃ rest, (rule kind.document).Reads grammar .spaced text (some rest) := by
    cases row with
    | @next _ gap other first after _ ignored here more =>
        rw [List.forall_mem_cons] at same
        obtain ⟨rfl, others⟩ := same
        rcases here.reads with ⟨middle, present, ends⟩
        rcases reads_many more others with ⟨rest, rounds, blank⟩
        rw [← gap_of_taken ends] at rounds
        have ended : (rule .endOfInput).Reads grammar .spaced (grammar.gap .spaced rest) (some []) := by
          have none : grammar.gap .spaced rest = [] := blank
          rw [none]
          exact .rule (.absent (.char_refused rfl))
        have begins : grammar.gap .spaced (gap ++ (first ++ after)) = first ++ after :=
          ignored.afterBlanks_append.trans here.solid
        rw [← begins] at present
        refine ⟨[], reads_rule_iff.mpr ?_⟩
        have spaced : Spacing.spaced.inside (grammar.spacing other.document) = .spaced := by
          cases other <;> rfl
        rw [spaced, body_document]
        exact .seq (.seq .empty (.seq present rounds)) ended
  rcases reads with ⟨rest, reads⟩
  rcases exists_call (Cursor.ofText_within text) reads with ⟨tree, found⟩
  exact ⟨tree, by rw [Grammar.parse, found]⟩

/-- The definitions of both kinds begin differently. -/
theorem kind_eq_of_begins {one other : Kind} (begins : ∃ word ∈ one.beginnings, word.toList <+: text)
    (begins' : ∃ word ∈ other.beginnings, word.toList <+: text) : one = other := by
  cases one <;> cases other
  case executable.typeSystem => exact (not_begins_of_shared (shared_refl text) begins begins').elim
  case typeSystem.executable => exact (not_begins_of_shared (shared_refl text) begins' begins).elim
  all_goals rfl

theorem Taken.afterBlanks_ne_nil {gap after : List Char} (taken : Taken kind text after)
    (ignored : Ignored gap) : grammar.afterBlanks (gap ++ (text ++ after)) ≠ [] := by
  rw [ignored.afterBlanks_append, taken.solid]
  exact fun none => taken.ne_nil (List.append_eq_nil_iff.mp none).1

/-- The kind of a piece and the place where it begins. -/
def Piece.mark (piece : Piece) : Kind × Nat := (piece.kind, piece.offset)

/-- A text is a row in one way only. -/
theorem Row.marks_eq {offset' : Nat} {text' : List Char} {pieces' : List Piece}
    (row : Row Taken offset text pieces) (row' : Row Taken offset' text' pieces')
    (begins : grammar.afterBlanks text = grammar.afterBlanks text')
    (ends : offset + text.length = offset' + text'.length) :
    pieces.map Piece.mark = pieces'.map Piece.mark := by
  induction row generalizing offset' text' pieces' with
  | done blank =>
      cases row' with
      | done => rfl
      | next ignored here _ => exact absurd (begins.symm.trans blank) (here.afterBlanks_ne_nil ignored)
  | @next offset gap kind text after pieces ignored here more ih =>
      cases row' with
      | done blank => exact absurd (begins.trans blank) (here.afterBlanks_ne_nil ignored)
      | @next _ gap' kind' text' after' pieces' ignored' here' more' =>
          rw [ignored.afterBlanks_append, here.solid, ignored'.afterBlanks_append, here'.solid] at begins
          have kinds : kind = kind' := by
            refine kind_eq_of_begins here.begins ?_
            rw [begins]
            exact here'.begins
          subst kinds
          rcases here.reads with ⟨middle, reads, stops⟩
          rcases here'.reads with ⟨middle', reads', stops'⟩
          rw [begins] at reads
          have same := Option.some.inj (reads.unique reads')
          have lengths := congrArg List.length begins
          simp only [List.length_append] at lengths ends
          have blanks : grammar.afterBlanks after = grammar.afterBlanks after' := by
            rw [← gap_of_taken stops, same, gap_of_taken stops']
          rw [List.map_cons, List.map_cons, ih more' blanks (by omega), Piece.mark, Piece.mark]
          have start : offset + gap.length = offset' + gap'.length := by omega
          rw [start]

end Row

/-! ## Readers -/

/-- An answer that is not a syntax error. -/
def Grammatical {α : Type} (answer : Except ParseError α) : Prop :=
  ∀ position, answer ≠ .error (.noMatch position)

namespace Grammatical

variable {α β : Type}

theorem ok (value : α) : Grammatical (.ok value) := fun _ => by simp

theorem bind {first : Except ParseError α} {next : α → Except ParseError β} (before : Grammatical first)
    (after : ∀ value, Grammatical (next value)) : Grammatical (first >>= next) := by
  cases first with
  | error problem =>
      intro position same
      cases same
      exact before position rfl
  | ok value => exact after value

theorem map {first : Except ParseError α} (before : Grammatical first) (change : α → β) :
    Grammatical (first.map change) := by
  cases first with
  | error problem =>
      intro position same
      cases same
      exact before position rfl
  | ok value => exact ok _

theorem mapM {step : α → Except ParseError β} {items : List α} (each : ∀ item, Grammatical (step item)) :
    Grammatical (items.mapM step) := by
  induction items with
  | nil => exact ok _
  | cons item items ih =>
      rw [List.mapM_cons]
      exact (each item).bind fun _ => ih.bind fun _ => ok _

end Grammatical

open Grammatical

section Reader

variable (place : Nat → Position)

mutual

theorem grammatical_valueOf : (tree : Match) → Grammatical (valueOf place tree)
  | .node called start stop parts => by
      rw [valueOf.eq_def]
      dsimp only
      split
      · exact grammatical_valuesOf parts
      · exact ok _
      · split
        · exact ok _
        · exact fun _ => by simp
      · exact ok _
      · exact ok _
      · exact ok _
      · exact ok _
      · exact (grammatical_valuesOf parts).bind fun _ => ok _
      · exact (grammatical_namedValuesOf parts).bind fun _ => ok _
      · exact ok _

theorem grammatical_valuesOf : (parts : List Match) → Grammatical (valuesOf place parts)
  | [] => by
      rw [valuesOf]
      exact ok _
  | part :: parts => by
      rw [valuesOf]
      exact (grammatical_valueOf part).bind fun _ => (grammatical_valuesOf parts).bind fun _ => ok _

theorem grammatical_namedValuesOf : (entries : List Match) → Grammatical (namedValuesOf place entries)
  | [] => by
      rw [namedValuesOf]
      exact ok _
  | .node _ _ _ parts :: entries => by
      rw [namedValuesOf]
      exact (grammatical_valuesOf parts).bind fun _ => (grammatical_namedValuesOf entries).bind fun _ => ok _

end

theorem grammatical_argumentsIn (parts : List Match) : Grammatical (argumentsIn place parts) :=
  grammatical_namedValuesOf place _

theorem grammatical_directivesIn (parts : List Match) : Grammatical (directivesIn place parts) :=
  mapM fun _ => (grammatical_argumentsIn place _).bind fun _ => ok _

mutual

theorem grammatical_selectionOf (levels : Nat) : (tree : Match) →
    Grammatical (selectionOf place levels tree)
  | .node called start stop parts => by
      have directives := grammatical_directivesIn place parts
      have selections := grammatical_selectionSetIn levels parts
      rw [selectionOf.eq_def]
      dsimp only
      split
      · exact grammatical_selectionsOf levels parts
      · refine (grammatical_argumentsIn place parts).bind fun _ => ?_
        exact directives.bind fun _ => selections.bind fun _ => ok _
      · exact directives.bind fun _ => selections.bind fun _ => ok _
      · exact directives.bind fun _ => ok _
      · exact ok _

theorem grammatical_selectionsOf (levels : Nat) : (parts : List Match) →
    Grammatical (selectionsOf place levels parts)
  | [] => by
      rw [selectionsOf]
      exact ok _
  | part :: parts => by
      rw [selectionsOf]
      refine (grammatical_selectionOf levels part).bind fun _ => ?_
      exact (grammatical_selectionsOf levels parts).bind fun _ => ok _

theorem grammatical_selectionSetIn (levels : Nat) : (parts : List Match) →
    Grammatical (selectionSetIn place levels parts)
  | [] => by
      rw [selectionSetIn]
      exact ok _
  | .node called _ _ inner :: parts => by
      rw [selectionSetIn.eq_def]
      dsimp only
      split
      · cases levels with
        | zero => exact fun _ => by simp
        | succ levels => exact grammatical_selectionsOf levels inner
      · exact grammatical_selectionSetIn levels parts

end

theorem grammatical_operationOf (tree : Match) : Grammatical (operationOf place tree) := by
  have variableDefinition : ∀ part, Grammatical (variableDefinitionOf place part) := fun part =>
    (grammatical_directivesIn place _).bind fun _ => (grammatical_valuesOf place _).bind fun _ => ok _
  exact (mapM variableDefinition).bind fun _ => (grammatical_directivesIn place _).bind fun _ =>
    (grammatical_selectionSetIn place _ _).bind fun _ => ok _

theorem grammatical_fragmentOf (tree : Match) : Grammatical (fragmentOf place tree) :=
  (grammatical_directivesIn place _).bind fun _ =>
    (grammatical_selectionSetIn place _ _).bind fun _ => ok _

mutual

theorem grammatical_checkNumbers : (tree : Match) → Grammatical (checkNumbers place tree)
  | .node called start stop parts => by
      rw [checkNumbers]
      split
      · exact fun _ => by simp
      · exact grammatical_checkAllNumbers parts

theorem grammatical_checkAllNumbers : (parts : List Match) → Grammatical (checkAllNumbers place parts)
  | [] => by
      rw [checkAllNumbers]
      exact ok _
  | part :: parts => by
      rw [checkAllNumbers]
      exact (grammatical_checkNumbers part).bind fun _ => grammatical_checkAllNumbers parts

end

theorem grammatical_checkRoots (seen kinds : List OperationKind) : Grammatical (checkRoots seen kinds) := by
  induction kinds generalizing seen with
  | nil => exact ok _
  | cons kind kinds ih =>
      rw [checkRoots]
      split
      · exact fun _ => by simp
      · exact ih _

theorem grammatical_checkSchema (parts : List Match) (extended : Bool) :
    Grammatical (checkSchema parts extended) := by
  refine (grammatical_checkRoots _ _).bind fun _ => ?_
  split
  · exact fun _ => by simp [throw, throwThe, MonadExceptOf.throw]
  · exact ok _

/-- A match of the grammar is not refused for its syntax. -/
theorem grammatical_read (kind : Kind) (tree : Match) : Grammatical (kind.read place tree) := by
  cases kind with
  | executable =>
      refine mapM fun part => ?_
      split
      · exact (grammatical_operationOf place part).map _
      · exact (grammatical_fragmentOf place part).map _
  | typeSystem =>
      refine mapM fun part => (grammatical_checkAllNumbers place _).bind fun _ => ?_
      split
      · exact (grammatical_checkSchema _ _).bind fun _ => ok _
      · exact ok _

end Reader

theorem grammatical_definitionsOf {kind : Kind} {text : List Char} {root : Match}
    (parsed : grammar.parse kind.document text = .ok root) :
    Grammatical (definitionsOf text kind.document kind.read) := by
  rw [definitionsOf, parsed]
  exact (mapM fun tree => grammatical_read _ kind tree).bind fun _ => ok _

/-- Whether a text that matches the grammar may be refused for a violation. -/
def Violation.afterMatch : Violation → Bool
  | .operationCount => true
  | .unreadable (.noMatch _) => false
  | .unreadable _ => true
  | _ => false

theorem bind_eq_error {ε α β : Type} {first : Except ε α} {next : α → Except ε β} {problem : ε}
    (failed : (first >>= next) = .error problem) :
    first = .error problem ∨ ∃ middle, first = .ok middle ∧ next middle = .error problem := by
  cases first with
  | error other =>
      cases failed
      exact Or.inl rfl
  | ok middle => exact Or.inr ⟨middle, rfl, failed⟩

section Violations

variable {text : List Char} {root : Match} {violation : Violation}

theorem afterMatch_definitionsOf {kind : Kind} (parsed : grammar.parse kind.document text = .ok root)
    (refused : (definitionsOf text kind.document kind.read).mapError .unreadable = .error violation) :
    violation.afterMatch := by
  have grammatical := grammatical_definitionsOf parsed
  cases computed : definitionsOf text kind.document kind.read with
  | ok definitions =>
      rw [computed] at refused
      cases refused
  | error problem =>
      rw [computed] at refused grammatical
      cases refused
      cases problem with
      | noMatch position => exact absurd rfl (grammatical position)
      | _ => rfl

theorem afterMatch_checkName {earlier : List Definition} {definition : Definition}
    (refused : checkName earlier definition = .error violation) : violation.afterMatch := by
  cases definition with
  | operation operation =>
      simp only [checkName] at refused
      split at refused
      · cases refused
        rfl
      · cases refused
  | fragment fragment =>
      simp only [checkName] at refused
      split at refused
      · cases refused
        rfl
      · cases refused
  | typeSystem => cases refused

theorem afterMatch_checkNames {earlier definitions : List Definition}
    (refused : checkNames earlier definitions = .error violation) : violation.afterMatch := by
  induction definitions generalizing earlier with
  | nil => cases refused
  | cons definition definitions ih =>
      rw [checkNames] at refused
      rcases bind_eq_error refused with here | ⟨_, _, later⟩
      · exact afterMatch_checkName here
      · exact ih later

/-- A text of executable definitions that matches the grammar is not refused for its syntax. -/
theorem afterMatch_executable (parsed : grammar.parse Kind.executable.document text = .ok root)
    (refused : Reader.executable text = .error violation) : violation.afterMatch := by
  rcases bind_eq_error refused with unread | ⟨definitions, _, refused⟩
  · exact afterMatch_definitionsOf parsed unread
  · rcases bind_eq_error refused with clash | ⟨_, _, refused⟩
    · exact afterMatch_checkNames clash
    · dsimp only at refused
      split at refused
      · cases refused
        rfl
      · cases refused

theorem afterMatch_typeSystem (parsed : grammar.parse Kind.typeSystem.document text = .ok root)
    (refused : Reader.typeSystem text = .error violation) : violation.afterMatch := by
  rcases bind_eq_error refused with unread | ⟨definitions, _, refused⟩
  · exact afterMatch_definitionsOf parsed unread
  · cases refused

end Violations

end PreviewLint
