import PreviewLint.Proofs.GraphQL.Boundaries
import PreviewLint.Proofs.GraphQL.Spans

/-!
# What stands outside of brackets

A definition begins with a keyword, maybe after a description. After its keyword it goes on
outside of brackets with names, marks and parts in parentheses. If it has a body in braces, the
body is the only part in braces that is not inside of other brackets, and it ends the definition;
no string stands outside of brackets.

This is read off the grammar. A `Place` tells where in a definition the end of what was read lies,
and `places` follows an expression from place to place.
-/

namespace PreviewLint.GraphQL

open Peg

/-- A place in a definition after its keyword. -/
inductive Place where
  /-- Outside of brackets, and before the body. -/
  | outside
  /-- Inside of brackets, with `depth` more of them open; `body` tells whether it is the body. -/
  | inside (body : Bool) (depth : Nat)
  /-- After the body. -/
  | closed
  deriving DecidableEq

/-- A plain character of a definition. A form feed stands in strings and comments only. -/
def isOrdinary (character : Char) : Bool := isPlain character && character != '\x0c'

theorem isOrdinary_of_isNamePart {character : Char} (part : isNamePart character) :
    isOrdinary character := by
  rw [isOrdinary, isPlain_of_isNamePart part, Bool.true_and, bne_iff_ne]
  rintro rfl
  cases part

theorem isOrdinary_of_isBlank {character : Char} (blank : isBlank character) :
    isOrdinary character := by
  rw [isOrdinary, isPlain_of_isBlank blank, Bool.true_and, bne_iff_ne]
  rintro rfl
  cases blank

namespace Place

/-- The place after a character that is a unit of its own. -/
def next : Place → Char → Option Place
  | outside, character =>
    if isOpening character then some (inside (character == '{') 0)
    else if isOrdinary character then some outside
    else none
  | inside body depth, character =>
    if isOpening character then some (inside body (depth + 1))
    else if isClosing character then
      if 0 < depth then some (inside body (depth - 1))
      else if body = (character == '}') then some (if body then closed else outside)
      else none
    else if isPlain character then some (inside body depth)
    else none
  | closed, _ => none

/-- The place after a keyword, or after the brace of a query without one. -/
def afterKeyword (keyword : String) : Place :=
  if keyword = "\x7b" then inside true 0 else outside

end Place

/-- Whole units lead through a definition from one place to another. -/
inductive Pass : Place → List Char → Place → List Char → Prop
  | refl {place text} : Pass place text place text
  | next {place character after text final rest} (moves : place.next character = some after)
      (more : Pass after text final rest) : Pass place (character :: text) final rest
  | comment {place body text final rest} (running : place ≠ .closed)
      (inside : ∀ character ∈ body, isLineEnd character = false)
      (ended : ∀ character ∈ text.head?, isLineEnd character)
      (more : Pass place text final rest) : Pass place ('#' :: (body ++ text)) final rest
  | string {body depth text middle final rest}
      (reads : (rule .string).Reads grammar .joined text (some middle))
      (more : Pass (.inside body depth) middle final rest) : Pass (.inside body depth) text final rest

theorem isPlain_of_isOrdinary {character : Char} (ordinary : isOrdinary character) :
    isPlain character :=
  (Bool.and_eq_true_iff.mp ordinary).1

namespace Place

variable {place after : Place} {character : Char}

/-- How many brackets are open at a place. -/
def depth : Place → Nat
  | outside | closed => 0
  | inside _ depth => depth + 1

theorem depth_opening (opens : isOpening character) (moves : place.next character = some after) :
    after.depth = place.depth + 1 := by
  cases place with
  | closed => cases moves
  | _ =>
      simp only [next, opens, if_true, Option.some.injEq] at moves
      subst moves
      rfl

theorem isOpening_of_isClosing (closes : isClosing character) : isOpening character = false :=
  Bool.eq_false_iff.mpr fun opens => by
    rw [not_isClosing_of_isOpening opens] at closes
    cases closes

/-- Outside of brackets none is closed. -/
theorem exists_inside (closes : isClosing character) (moves : place.next character = some after) :
    ∃ body depth, place = .inside body depth ∧
      (depth = 0 ∧ body = (character == '}') ∧ after = (if body then .closed else .outside) ∨
        ∃ outer, depth = outer + 1 ∧ after = .inside body outer) := by
  have unopened := isOpening_of_isClosing closes
  cases place with
  | outside =>
      have special : isOrdinary character = false := Bool.eq_false_iff.mpr fun ordinary => by
        rw [(isPlain_iff.mp (isPlain_of_isOrdinary ordinary)).2.1] at closes
        cases closes
      simp [next, unopened, special] at moves
  | inside body depth =>
      refine ⟨body, depth, rfl, ?_⟩
      simp only [next, unopened, closes, Bool.false_eq_true, if_false, if_true] at moves
      cases depth with
      | zero =>
          simp only [Nat.lt_irrefl, if_false] at moves
          split at moves
          · next same =>
              cases moves
              exact Or.inl ⟨rfl, same, rfl⟩
          · cases moves
      | succ outer =>
          simp only [Nat.zero_lt_succ, if_true, Option.some.injEq] at moves
          exact Or.inr ⟨outer, rfl, moves.symm⟩
  | closed => cases moves

theorem depth_closing (closes : isClosing character) (moves : place.next character = some after) :
    after.depth = place.depth - 1 := by
  rcases exists_inside closes moves with ⟨body, depth, rfl, ⟨rfl, _, rfl⟩ | ⟨outer, rfl, rfl⟩⟩
  · cases body <;> rfl
  · rfl

theorem next_eq_self (plain : isPlain character) (moves : place.next character = some after) :
    after = place := by
  obtain ⟨unopened, unclosed, _⟩ := isPlain_iff.mp plain
  cases place with
  | outside =>
      simp only [next, unopened, Bool.false_eq_true, if_false] at moves
      split at moves
      · exact (Option.some.inj moves).symm
      · cases moves
  | inside body depth =>
      simp only [next, unopened, unclosed, plain, Bool.false_eq_true, if_false, if_true] at moves
      exact (Option.some.inj moves).symm
  | closed => cases moves

/-- In the body of a definition, or after it. -/
def InBody (place : Place) : Prop := place = .closed ∨ ∃ depth, place = .inside true depth

theorem InBody.next (within : place.InBody) (moves : place.next character = some after) :
    after.InBody := by
  rcases within with rfl | ⟨depth, rfl⟩
  · cases moves
  simp only [Place.next, if_true] at moves
  split at moves
  · exact Or.inr ⟨_, (Option.some.inj moves).symm⟩
  · split at moves
    · split at moves
      · exact Or.inr ⟨_, (Option.some.inj moves).symm⟩
      · split at moves
        · exact Or.inl (Option.some.inj moves).symm
        · cases moves
    · split at moves
      · exact Or.inr ⟨_, (Option.some.inj moves).symm⟩
      · cases moves

theorem next_ordinary (running : place ≠ .closed)
    (ordinary : isOrdinary character) : place.next character = some place := by
  have plain := isPlain_of_isOrdinary ordinary
  obtain ⟨unopened, unclosed, _⟩ := isPlain_iff.mp plain
  cases place with
  | outside => simp [next, unopened, ordinary]
  | inside body depth => simp [next, unopened, unclosed, plain]
  | closed => exact absurd rfl running

end Place

namespace Pass

variable {place middle final : Place} {text between rest : List Char}

theorem trans (first : Pass place text middle between) (second : Pass middle between final rest) :
    Pass place text final rest := by
  induction first with
  | refl => exact second
  | next moves _ ih => exact .next moves (ih second)
  | comment running inside ended _ ih => exact .comment running inside ended (ih second)
  | string reads _ ih => exact .string reads (ih second)

theorem suffix (pass : Pass place text final rest) : rest <:+ text := by
  induction pass with
  | refl => exact List.suffix_refl _
  | next _ _ ih => exact ih.trans (List.suffix_cons _ _)
  | comment _ _ _ _ ih => exact ih.trans ((List.suffix_append _ _).trans (List.suffix_cons _ _))
  | string reads _ ih => exact ih.trans (orderly.suffix_of_reads reads)

theorem ordinary {characters : List Char} (running : place ≠ .closed)
    (ordinary : ∀ character ∈ characters, isOrdinary character) :
    Pass place (characters ++ text) place text := by
  induction characters with
  | nil => exact .refl
  | cons character characters ih =>
      refine .next (Place.next_ordinary running (ordinary character List.mem_cons_self)) (ih ?_)
      exact fun other member => ordinary other (List.mem_cons_of_mem _ member)

/-- Inside of brackets every walk is a pass. -/
theorem of_walk {depth last : Nat} (walk : Walk depth text last rest) (body : Bool) :
    Pass (.inside body depth) text (.inside body last) rest := by
  induction walk with
  | refl => exact .refl
  | plain plain _ ih =>
      obtain ⟨unopened, unclosed, _⟩ := isPlain_iff.mp plain
      exact .next (by simp [Place.next, unopened, unclosed, plain]) ih
  | opening opens _ ih => exact .next (by simp [Place.next, opens]) ih
  | closing closes _ ih =>
      have unopened : isOpening _ = false := Bool.eq_false_iff.mpr fun opens => by
        rw [not_isClosing_of_isOpening opens] at closes
        cases closes
      exact .next (by simp [Place.next, unopened, closes]) ih
  | comment inside ended _ ih => exact .comment (by simp) inside ended ih
  | string reads _ ih => exact .string reads ih

theorem ignored {ignored : List Char} (running : place ≠ .closed) (blank : Ignored ignored) :
    Pass place (ignored ++ text) place text := by
  induction blank with
  | nil => exact .refl
  | blank blank _ ih => exact .next (Place.next_ordinary running (isOrdinary_of_isBlank blank)) ih
  | comment inside ends _ ih =>
      rw [List.append_assoc, List.cons_append]
      have ordinary := isOrdinary_of_isBlank (isBlank_of_isLineEnd ends)
      refine .comment running inside ?_ (.next (Place.next_ordinary running ordinary) ih)
      rintro character ⟨⟩
      exact ends

theorem afterBlanks (running : place ≠ .closed) (text : List Char) :
    Pass place text place (grammar.afterBlanks text) := by
  rcases afterBlanks_cases text with ⟨gap, first, rest, rfl, blank, _, after⟩ |
    ⟨after, gap, rest, rfl, blank, rfl | ⟨body, inside, rfl⟩⟩
  · rw [after]
    exact ignored running blank
  · rw [after]
    exact ignored running blank
  · rw [after]
    refine (ignored running blank).trans ?_
    rw [← List.append_nil body]
    exact .comment running inside (by simp) .refl

theorem gap (running : place ≠ .closed) (spacing : Spacing) (text : List Char) :
    Pass place text place (grammar.gap spacing text) := by
  rw [Grammar.gap]
  split
  · exact afterBlanks running text
  · exact .refl

/-! A pass that goes anywhere begins with the first unit of the text. -/

theorem of_next {character : Char} (pass : Pass place (character :: text) final rest)
    (unquoted : character ≠ '"') (unmarked : character ≠ '#') (moves : rest.length ≤ text.length) :
    ∃ after, place.next character = some after ∧ Pass after text final rest := by
  cases pass with
  | refl =>
      rw [List.length_cons] at moves
      omega
  | next moves more => exact ⟨_, moves, more⟩
  | comment => exact absurd rfl unmarked
  | string reads =>
      rcases string_head reads with ⟨_, same⟩
      cases same
      exact absurd rfl unquoted

theorem running {character : Char} (pass : Pass place (character :: text) final rest)
    (moves : rest.length ≤ text.length) : place ≠ .closed := by
  rintro rfl
  generalize whole : character :: text = start at pass
  cases pass with
  | refl =>
      rw [← whole, List.length_cons] at moves
      omega
  | next moves => cases moves
  | comment running => exact running rfl

theorem of_ordinary {characters : List Char} (pass : Pass place (characters ++ text) final rest)
    (ordinary : ∀ character ∈ characters, isOrdinary character) (moves : rest.length ≤ text.length) :
    Pass place text final rest := by
  induction characters with
  | nil => exact pass
  | cons character characters ih =>
      have here := ordinary character List.mem_cons_self
      obtain ⟨_, _, unquoted, unmarked⟩ := isPlain_iff.mp (isPlain_of_isOrdinary here)
      have moves' : rest.length ≤ (characters ++ text).length := by
        rw [List.length_append]
        omega
      rcases of_next pass unquoted unmarked moves' with ⟨after, moved, more⟩
      rw [Place.next_ordinary (running pass moves') here] at moved
      cases moved
      exact ih more fun other member => ordinary other (List.mem_cons_of_mem _ member)

theorem of_comment {body : List Char} (pass : Pass place ('#' :: (body ++ text)) final rest)
    (inside : ∀ character ∈ body, isLineEnd character = false)
    (ended : ∀ character ∈ text.head?, isLineEnd character)
    (moves : rest.length ≤ (body ++ text).length) : Pass place text final rest := by
  generalize whole : '#' :: (body ++ text) = start at pass
  cases pass with
  | refl =>
      subst whole
      rw [List.length_cons] at moves
      omega
  | next moved =>
      injection whole with same
      subst same
      cases place <;> cases moved
  | comment _ inside' ended' more =>
      injection whole with _ same
      rcases comment_body_unique inside inside' ended ended' same with ⟨_, rfl⟩
      exact more
  | string reads =>
      rcases string_head reads with ⟨_, same⟩
      rw [same] at whole
      cases whole

/-- A string stands inside of brackets only. -/
theorem exists_string (pass : Pass place ('"' :: text) final rest) (moves : rest.length ≤ text.length) :
    ∃ middle, (∃ body depth, place = .inside body depth) ∧
      (rule .string).Reads grammar .joined ('"' :: text) (some middle) ∧ Pass place middle final rest := by
  cases pass with
  | refl =>
      rw [List.length_cons] at moves
      omega
  | next moved => cases place <;> cases moved
  | string reads more => exact ⟨_, ⟨_, _, rfl⟩, reads, more⟩

theorem place_eq_of_length_le (pass : Pass place text final rest) (still : text.length ≤ rest.length) :
    place = final := by
  cases pass with
  | refl => rfl
  | next _ more =>
      have shorter := more.suffix.length_le
      rw [List.length_cons] at still
      omega
  | comment _ _ _ more =>
      have shorter := more.suffix.length_le
      simp only [List.length_append, List.length_cons] at still
      omega
  | string reads more =>
      have shorter := more.suffix.length_le
      have empty := orderly.nullable_of_reads reads (by omega)
      cases empty

/-- The body of a definition is not left for what stands outside. -/
theorem ne_outside (pass : Pass place text final rest) (within : place.InBody) : final ≠ .outside := by
  induction pass with
  | refl =>
      rintro rfl
      rcases within with absurd | ⟨_, absurd⟩ <;> cases absurd
  | next moves _ ih => exact ih (within.next moves)
  | comment _ _ _ _ ih | string _ _ ih => exact ih within

/-- A place is reached in one way only. -/
theorem unique {other : Place} (first : Pass place text final rest) (second : Pass place text other rest) :
    final = other := by
  induction first with
  | refl => exact second.place_eq_of_length_le (Nat.le_refl _)
  | @next place character after text final rest moves more ih =>
      have unquoted : character ≠ '"' := by
        rintro rfl
        cases place <;> cases moves
      have unmarked : character ≠ '#' := by
        rintro rfl
        cases place <;> cases moves
      rcases second.of_next unquoted unmarked more.suffix.length_le with ⟨after', moves', more'⟩
      rw [moves] at moves'
      cases moves'
      exact ih more'
  | @comment place body text final rest _ inside ended more ih =>
      have shorter := more.suffix.length_le
      exact ih (second.of_comment inside ended (by rw [List.length_append]; omega))
  | @string body depth text middle final rest reads more ih =>
      have shorter := more.suffix.length_le
      rcases exists_unit reads with ⟨unit, rfl⟩
      rcases second.exists_string (by rw [List.length_append]; omega) with ⟨middle', _, reads', more'⟩
      cases reads.unique reads'
      exact ih more'

/-- Blanks do not lead to another place. -/
theorem place_eq (pass : Pass place text final rest)
    (ends : rest = text ∨ rest = grammar.afterBlanks text) : place = final := by
  rcases ends with rfl | rfl
  · exact pass.place_eq_of_length_le (Nat.le_refl _)
  · by_cases running : place = .closed
    · subst running
      cases text with
      | nil => exact pass.place_eq_of_length_le (Nat.zero_le _)
      | cons character text =>
          refine pass.place_eq_of_length_le (Nat.le_of_not_lt fun moves => ?_)
          exact pass.running (Nat.le_of_lt_succ moves) rfl
    · exact (afterBlanks running text).unique pass

end Pass

/-! ## Expressions outside of brackets -/

/-- The rules that read something in parentheses. -/
def isParenthesized : Rule → Bool
  | .variableDefinitions | .argumentsDefinition | .arguments _ => true
  | _ => false

/-- The rules that read something in braces. -/
def isBraced : Rule → Bool
  | .selectionSet | .fieldsDefinition | .inputFieldsDefinition | .enumValuesDefinition => true
  | _ => false

/-- The rules that read no string and no braces outside of parentheses. -/
def isOuter : Rule → Bool
  | .name | .operationType | .typeCondition | .directives _ | .directive _ | .extend
  | .implementsInterfaces | .unionMembers | .repeatable | .directiveLocations
  | .directiveLocation => true
  | called => isParenthesized called

/-- Whether an expression reads no string and no braces outside of parentheses. -/
def outer : Peg Rule → Bool
  | .empty | .absent _ => true
  | .char accepts => effect (.char accepts) = some (0, 0) && !accepts '\x0c'
  | .word fixed => fixed.toList.all isOrdinary
  | .rule called => isOuter called
  | .seq first second | .choice first second => outer first && outer second
  | .maybe body | .many body => outer body

theorem outer_body {called : Rule} (outside : isOuter called) (other : isParenthesized called = false) :
    outer (grammar.body called) := by
  cases called <;> try cases ‹Constancy›
  all_goals first | (cases outside; done) | (cases other; done) | decide +kernel

theorem exists_parenthesized {called : Rule} (parenthesized : isParenthesized called) :
    ∃ content, grammar.body called = .seq (.seq (.word "(") content) (.word ")") ∧
      effect content = some (0, 0) := by
  cases called <;> try cases ‹Constancy›
  all_goals first | exact ⟨_, rfl, by decide +kernel⟩ | cases parenthesized

theorem exists_braced {called : Rule} (braced : isBraced called) :
    ∃ content, grammar.body called = .seq (.seq (.word "\x7b") content) (.word "\x7d") ∧
      effect content = some (0, 0) := by
  cases called <;> try cases ‹Constancy›
  all_goals first | exact ⟨_, rfl, by decide +kernel⟩ | cases braced

section Outside

variable {spacing : Spacing} {text rest : List Char}

/-- What stands between two delimiters is passed inside of brackets. -/
theorem pass_enclosed {opening closing : String} {first last : Char} {content : Peg Rule}
    {body : Bool} {final : Place} (opening_eq : opening.toList = [first])
    (closing_eq : closing.toList = [last]) (opens : Place.outside.next first = some (.inside body 0))
    (closes : (Place.inside body 0).next last = some final)
    (effective : effect content = some (0, 0))
    (reads : (seq (seq (word opening) content) (word closing)).Reads grammar spacing text (some rest)) :
    Pass .outside text final rest := by
  rcases reads_seq_iff.mp reads with ⟨after, before, closed⟩
  rcases reads_seq_iff.mp before with ⟨inner, opened, inside⟩
  have start := reads_word_iff.mp opened
  have stop := reads_word_iff.mp closed
  rw [opening_eq] at start
  rw [closing_eq] at stop
  have walk := walk_of_reads inside effective 0
  have through : Pass (.inside body 0) inner (.inside body 0) (grammar.gap spacing after) :=
    (Pass.gap (by simp) spacing inner).trans
      ((Pass.of_walk walk body).trans (Pass.gap (by simp) spacing after))
  rw [stop] at through
  rw [start]
  exact .next opens (through.trans (.next closes .refl))

/-- An expression without strings and braces stays outside of brackets. -/
theorem pass_of_outer {expression : Peg Rule}
    (reads : expression.Reads grammar spacing text (some rest)) (outside : outer expression) :
    Pass .outside text .outside rest := by
  generalize found : some rest = answer at reads
  induction reads generalizing rest with
  | empty | maybe_none | many_none | absent =>
      cases found
      exact .refl
  | char accepted =>
      cases found
      simp only [outer, Bool.and_eq_true, decide_eq_true_eq, Bool.not_eq_true'] at outside
      refine .next (Place.next_ordinary (by simp) ?_) .refl
      rw [isOrdinary, isPlain_of_effect outside.1 accepted, Bool.true_and, bne_iff_ne]
      rintro rfl
      rw [accepted] at outside
      cases outside.2
  | word =>
      cases found
      exact Pass.ordinary (by simp) (List.all_eq_true.mp outside)
  | @rule spacing called text answer body ih =>
      -- What stands in parentheses is passed as a whole, strings and braces included.
      cases parenthesized : isParenthesized called with
      | true =>
          subst found
          rcases exists_parenthesized parenthesized with ⟨content, same, effective⟩
          rw [same] at body
          exact pass_enclosed rfl rfl rfl rfl effective body
      | false => exact ih (outer_body outside parenthesized) found
  | @seq spacing first second text middle answer _ _ before after =>
      rw [outer, Bool.and_eq_true] at outside
      exact (before outside.1 rfl).trans ((Pass.gap (by simp) _ _).trans (after outside.2 found))
  | choice_first _ ih =>
      rw [outer, Bool.and_eq_true] at outside
      exact ih outside.1 found
  | choice_second _ _ _ ih =>
      rw [outer, Bool.and_eq_true] at outside
      exact ih outside.2 found
  | maybe _ ih | many_last _ _ ih => exact ih outside found
  | many_more _ _ _ one _ others =>
      exact (one outside rfl).trans ((Pass.gap (by simp) _ _).trans (others outside found))
  | char_refused | word_refused | seq_refused | absent_refused => cases found

end Outside

/-! ## From place to place -/

/-- Whether a match of an expression ends at the place where it begins. -/
def stays (expression : Peg Rule) (place : Place) : Bool :=
  place = .outside && outer expression ||
    place = .inside true 0 && effect expression = some (0, 0)

/--
The places after a match of an expression that begins at a place; `none` if that cannot be seen.
Nothing is read after the body of a definition.
-/
def places (expression : Peg Rule) (place : Place) : Option (List Place) :=
  if stays expression place then some [place]
  else
    match expression with
    | .word fixed =>
      match fixed.toList with
      | [character] => (place.next character).map fun after => [after]
      | _ => none
    | .rule called => if place = .outside && isBraced called then some [.closed] else none
    | .seq first second =>
      (places first place).bind fun middles =>
        (middles.mapM fun middle => places second middle).map List.flatten
    | .choice first second =>
      (places first place).bind fun ones => (places second place).map fun others => ones ++ others
    | .maybe body => (places body place).map fun others => place :: others
    | .empty | .char _ | .many _ | .absent _ => none

section Places

variable {spacing : Spacing} {expression : Peg Rule} {place : Place} {finals : List Place}
  {text rest : List Char}

theorem places_closed (expression : Peg Rule) : places expression .closed = none := by
  have moves : ∀ expression, stays expression .closed = false := fun expression => by simp [stays]
  induction expression with
  | word fixed =>
      simp only [places, moves, Bool.false_eq_true, if_false, Place.next, Option.map_none]
      split <;> rfl
  | seq first second one _ => simp [places, moves, one]
  | choice first second one _ => simp [places, moves, one]
  | maybe body one => simp [places, moves, one]
  | _ => simp [places, moves]

theorem exists_of_mapM {α β : Type} {step : α → Option β} {items : List α} {results : List β}
    (mapped : items.mapM step = some results) {item : α} (member : item ∈ items) :
    ∃ result ∈ results, step item = some result := by
  induction items generalizing results with
  | nil => cases member
  | cons first items ih =>
      rw [List.mapM_cons] at mapped
      rcases Option.bind_eq_some_iff.mp mapped with ⟨one, stepped, mapped⟩
      rcases Option.bind_eq_some_iff.mp mapped with ⟨others, rest, same⟩
      cases same
      rcases List.mem_cons.mp member with rfl | later
      · exact ⟨one, List.mem_cons_self, stepped⟩
      · rcases ih rest later with ⟨result, listed, stepped⟩
        exact ⟨result, List.mem_cons_of_mem _ listed, stepped⟩

theorem pass_of_stays (reads : expression.Reads grammar spacing text (some rest))
    (still : stays expression place) : Pass place text place rest := by
  simp only [stays, Bool.or_eq_true, Bool.and_eq_true, decide_eq_true_eq] at still
  rcases still with ⟨rfl, outside⟩ | ⟨rfl, effective⟩
  · exact pass_of_outer reads outside
  · exact Pass.of_walk (walk_of_reads reads effective 0) true

theorem pass_of_stays_places (reads : expression.Reads grammar spacing text (some rest))
    (still : stays expression place) (found : places expression place = some finals) :
    ∃ final ∈ finals, Pass place text final rest := by
  have same : places expression place = some [place] := by cases expression <;> simp [places, still]
  rw [same] at found
  cases found
  exact ⟨place, List.mem_singleton_self _, pass_of_stays reads still⟩

/-- A match leads to one of the places that were found. -/
theorem pass_of_places (reads : expression.Reads grammar spacing text (some rest))
    (found : places expression place = some finals) : ∃ final ∈ finals, Pass place text final rest := by
  induction expression generalizing place finals text rest with
  | word fixed =>
      by_cases still : stays (.word fixed) place
      · exact pass_of_stays_places reads still found
      rw [places, if_neg still] at found
      split at found
      · next character single =>
          rcases Option.map_eq_some_iff.mp found with ⟨after, moves, rfl⟩
          rw [reads_word_iff.mp reads, single]
          exact ⟨after, List.mem_singleton_self _, .next moves .refl⟩
      · cases found
  | rule called =>
      by_cases still : stays (.rule called) place
      · exact pass_of_stays_places reads still found
      rw [places, if_neg still] at found
      split at found
      · next braced =>
          cases found
          simp only [Bool.and_eq_true, decide_eq_true_eq] at braced
          rcases exists_braced braced.2 with ⟨content, same, effective⟩
          have body := reads_rule_iff.mp reads
          rw [same] at body
          rw [braced.1]
          exact ⟨_, List.mem_singleton_self _, pass_enclosed rfl rfl rfl rfl effective body⟩
      · cases found
  | seq first second one other =>
      by_cases still : stays (.seq first second) place
      · exact pass_of_stays_places reads still found
      rw [places, if_neg still] at found
      rcases Option.bind_eq_some_iff.mp found with ⟨middles, firstFound, found⟩
      rcases Option.map_eq_some_iff.mp found with ⟨lists, secondFound, rfl⟩
      rcases reads_seq_iff.mp reads with ⟨between, before, after⟩
      rcases one before firstFound with ⟨middle, member, pass⟩
      rcases exists_of_mapM secondFound member with ⟨ends, listed, stepped⟩
      -- No place follows the end of a body, so the first part does not lead there.
      have running : middle ≠ .closed := by
        rintro rfl
        rw [places_closed] at stepped
        cases stepped
      rcases other after stepped with ⟨final, last, more⟩
      exact ⟨final, List.mem_flatten_of_mem listed last, pass.trans ((Pass.gap running _ _).trans more)⟩
  | choice first second one other =>
      by_cases still : stays (.choice first second) place
      · exact pass_of_stays_places reads still found
      rw [places, if_neg still] at found
      rcases Option.bind_eq_some_iff.mp found with ⟨ones, firstFound, found⟩
      rcases Option.map_eq_some_iff.mp found with ⟨others, secondFound, rfl⟩
      rcases reads_choice_iff.mp reads with chosen | ⟨_, chosen⟩
      · rcases one chosen firstFound with ⟨final, member, pass⟩
        exact ⟨final, List.mem_append_left _ member, pass⟩
      · rcases other chosen secondFound with ⟨final, member, pass⟩
        exact ⟨final, List.mem_append_right _ member, pass⟩
  | maybe body one =>
      by_cases still : stays (.maybe body) place
      · exact pass_of_stays_places reads still found
      rw [places, if_neg still] at found
      rcases Option.map_eq_some_iff.mp found with ⟨others, bodyFound, rfl⟩
      rcases reads_maybe_iff.mp reads with present | ⟨_, same⟩
      · rcases one present bodyFound with ⟨final, member, pass⟩
        exact ⟨final, List.mem_cons_of_mem _ member, pass⟩
      · rw [same]
        exact ⟨place, List.mem_cons_self, .refl⟩
  | empty | char _ | many _ _ | absent _ _ =>
      rw [places] at found
      split at found
      · next still =>
          cases found
          exact ⟨place, List.mem_singleton_self _, pass_of_stays reads still⟩
      · cases found

end Places

/-! ## The keyword of a definition -/

/-- The keywords of definitions that have no body in braces, unless they are extensions. -/
def bodilessKeywords : List String := ["scalar", "union", "directive"]

/-- How a form begins: maybe with a description, with one of some words, and with other parts. -/
structure Lead where
  described : Bool
  words : List String
  others : List (Peg Rule)

namespace Lead

/-- What some parts begin with. -/
def ofParts? : List (Peg Rule) → Option Lead
  | .maybe (.rule .string) :: .word keyword :: others => some ⟨true, [keyword], others⟩
  | .rule .extend :: others => some ⟨false, ["extend"], others⟩
  | .rule .operationType :: others => some ⟨false, ["query", "mutation", "subscription"], others⟩
  | .word keyword :: others => some ⟨false, [keyword], others⟩
  | _ => none

/--
Whether the words are keywords of a kind, and the other parts cannot be missing and lead to the end
of a definition.
-/
def suits (kind : Outline.Kind) (lead : Lead) : Bool :=
  !lead.others.isEmpty && !(row lead.others).nullable mayBeEmpty &&
    (!lead.described || kind = .typeSystem) &&
    lead.words.all fun word =>
      kind.beginnings.contains word && word != "\"" &&
        (places (row lead.others) (.afterKeyword word)).any fun finals =>
          finals.all fun final =>
            final = .outside && kind = .typeSystem ||
              final = .closed && !bodilessKeywords.contains word

end Lead

/-- The forms of the definitions of a kind, each as the list of its parts. -/
def definitionForms (kind : Outline.Kind) : List (List (Peg Rule)) :=
  (ruleForms 3 kind.definition).map parts

theorem suits_definitionForms (kind : Outline.Kind) :
    ∀ form ∈ definitionForms kind, (Lead.ofParts? form).any (Lead.suits kind) := by
  cases kind <;> decide +kernel

/--
A definition that is read from a text, taken apart at its keyword: a description and blanks may
stand before it, and units lead from it to what is left of the text.
-/
structure Headed (kind : Outline.Kind) (lead : List Char) (keyword : String) (more : List Char)
    (final : Place) (rest : List Char) : Prop where
  described : lead = [] ∨ kind = .typeSystem ∧ ∃ unit gap, lead = unit ++ gap ∧ Ignored gap ∧
    (rule .string).Reads grammar .joined (unit ++ (gap ++ (keyword.toList ++ more)))
      (some (gap ++ (keyword.toList ++ more)))
  member : keyword ∈ kind.beginnings
  unquoted : keyword ≠ "\""
  pass : Pass (.afterKeyword keyword) more final rest
  final_eq : final = .outside ∧ kind = .typeSystem ∨ final = .closed ∧ keyword ∉ bodilessKeywords
  reads_on : rest.length < (grammar.afterBlanks more).length
  bodiless : keyword ∈ bodilessKeywords → Bodiless (lead ++ (keyword.toList ++ more))

section Headed

variable {kind : Outline.Kind} {text rest : List Char}

/-- What the other parts of a form read after its keyword. -/
theorem headed_of_others {words : List String} {others : List (Peg Rule)} {described : Bool}
    {keyword : String} {lead more : List Char} (suits : Lead.suits kind ⟨described, words, others⟩)
    (listed : keyword ∈ words)
    (reads : (row others).Reads grammar .spaced (grammar.gap .spaced more) (some rest))
    (before : lead = [] ∨ described ∧ ∃ unit gap, lead = unit ++ gap ∧ Ignored gap ∧
      (rule .string).Reads grammar .joined (unit ++ (gap ++ (keyword.toList ++ more)))
        (some (gap ++ (keyword.toList ++ more))))
    (bodiless : keyword ∈ bodilessKeywords → Bodiless (lead ++ (keyword.toList ++ more))) :
    ∃ final, Headed kind lead keyword more final rest := by
  simp only [Lead.suits, Bool.and_eq_true, Bool.not_eq_true', Bool.or_eq_true,
    decide_eq_true_eq, List.all_eq_true, List.contains_iff_mem, bne_iff_ne] at suits
  obtain ⟨⟨⟨_, reading⟩, own⟩, words⟩ := suits
  obtain ⟨⟨member, unquoted⟩, leads⟩ := words keyword listed
  cases found : places (row others) (.afterKeyword keyword) with
  | none => simp [found] at leads
  | some finals =>
      rw [found, Option.any_some, List.all_eq_true] at leads
      rcases pass_of_places reads found with ⟨final, last, pass⟩
      have running : Place.afterKeyword keyword ≠ .closed := by
        rw [Place.afterKeyword]
        split <;> simp
      have ends := leads final last
      simp only [Bool.or_eq_true, Bool.and_eq_true, decide_eq_true_eq, Bool.not_eq_true',
        List.contains_eq_mem, decide_eq_false_iff_not] at ends
      refine ⟨final, ?_, member, unquoted, (Pass.gap running .spaced more).trans pass, ends, ?_, bodiless⟩
      · refine before.imp_right ?_
        rintro ⟨set, string⟩
        refine ⟨own.resolve_left fun unset => ?_, string⟩
        rw [set] at unset
        cases unset
      · refine Nat.lt_of_not_le fun still => ?_
        have empty := orderly.nullable_of_reads reads still
        rw [reading] at empty
        cases empty

theorem ne_nil_of_suits {lead : Lead} {keyword : String} (suits : lead.suits kind)
    (listed : keyword ∈ lead.words) : keyword.toList ≠ [] := by
  have letters : ∀ kind : Outline.Kind, ∀ word ∈ kind.beginnings, word.toList ≠ [] := by
    intro kind
    cases kind <;> decide
  simp only [Lead.suits, Bool.and_eq_true, List.all_eq_true, List.contains_iff_mem] at suits
  exact letters kind keyword (suits.2 keyword listed).1.1

/-- Blanks stand before a text that begins after them. -/
theorem exists_gap {text begins more : List Char} (some : begins ≠ [])
    (after : grammar.afterBlanks text = begins ++ more) :
    ∃ gap, text = gap ++ (begins ++ more) ∧ Ignored gap := by
  rcases afterBlanks_cases text with ⟨gap, _, _, whole, blank, _, same⟩ | ⟨none, _⟩
  · rw [← same, after] at whole
    exact ⟨gap, whole, blank⟩
  · rw [none] at after
    exact absurd (List.append_eq_nil_iff.mp after.symm).1 some

theorem exists_operationType {more : List Char}
    (reads : (rule .operationType).Reads grammar .spaced text (some more)) :
    ∃ keyword ∈ ["query", "mutation", "subscription"],
      keyword ∉ bodilessKeywords ∧ text = keyword.toList ++ more := by
  have body : (word "query" ||| word "mutation" ||| word "subscription").Reads grammar .spaced text
    (some more) := reads_rule_iff.mp reads
  rcases reads_choice_iff.mp body with either | ⟨_, third⟩
  · rcases reads_choice_iff.mp either with first | ⟨_, second⟩
    · exact ⟨"query", by decide, by decide, reads_word_iff.mp first⟩
    · exact ⟨"mutation", by decide, by decide, reads_word_iff.mp second⟩
  · exact ⟨"subscription", by decide, by decide, reads_word_iff.mp third⟩

/-- A text that is read by a form which may begin with a description is taken apart at its keyword. -/
theorem exists_headed_described {keyword : String} {others : List (Peg Rule)}
    (suits : Lead.suits kind ⟨true, [keyword], others⟩) (nonempty : others ≠ [])
    (solid : grammar.afterBlanks text = text)
    (reads : (row (.maybe (.rule .string) :: .word keyword :: others)).Reads grammar .spaced text
      (some rest)) :
    ∃ lead more final, text = lead ++ (keyword.toList ++ more) ∧
      Headed kind lead keyword more final rest := by
  have heads : keyword ∈ bodilessKeywords → Bodiless text := fun without =>
    ⟨⟨false, true, keyword⟩, without, heads_of_reads rfl solid reads⟩
  rcases reads_seq_iff.mp reads with ⟨middle, before, both⟩
  rw [row_cons nonempty] at both
  rcases reads_seq_iff.mp both with ⟨more, word, after⟩
  have start := reads_word_iff.mp word
  rcases reads_maybe_iff.mp before with present | ⟨_, rfl⟩
  · rcases exists_gap (ne_nil_of_suits suits (List.mem_singleton_self _)) start with ⟨gap, rfl, blank⟩
    have body := reads_rule_iff.mp present
    have string : (rule .string).Reads grammar .joined text _ := .rule body
    rcases exists_unit string with ⟨unit, rfl⟩
    have whole : '"' :: (unit ++ (gap ++ (keyword.toList ++ more))) =
        '"' :: unit ++ gap ++ (keyword.toList ++ more) := by simp
    rw [whole] at heads
    rcases headed_of_others suits (List.mem_singleton_self _) after
      (Or.inr ⟨rfl, '"' :: unit, gap, rfl, blank, string⟩) heads with ⟨final, headed⟩
    exact ⟨_, more, final, whole, headed⟩
  · rw [gap_of_solid solid] at start
    subst start
    rcases headed_of_others suits (List.mem_singleton_self _) after (Or.inl rfl) heads with
      ⟨final, headed⟩
    exact ⟨[], more, final, rfl, headed⟩

/-- Every definition has a keyword, and goes on after it outside of brackets until its body begins. -/
theorem exists_headed (solid : grammar.afterBlanks text = text)
    (reads : (rule kind.definition).Reads grammar .spaced text (some rest)) :
    ∃ lead keyword more final, text = lead ++ (keyword.toList ++ more) ∧
      Headed kind lead keyword more final rest := by
  rcases exists_form reads with ⟨expression, listed, formReads⟩
  have formReads := (alike_parts expression _ _).mpr formReads
  have checked := suits_definitionForms kind _ (List.mem_map_of_mem listed)
  generalize parts expression = form at formReads checked
  cases found : Lead.ofParts? form with
  | none => simp [found] at checked
  | some lead =>
      rw [found, Option.any_some] at checked
      have some : lead.others ≠ [] := by
        simp only [Lead.suits, Bool.and_eq_true, Bool.not_eq_true', List.isEmpty_eq_false_iff] at checked
        exact checked.1.1.1
      unfold Lead.ofParts? at found
      split at found
      · -- A description, which may be left out, and a keyword.
        next keyword others =>
          cases found
          rcases exists_headed_described checked some solid formReads with ⟨lead, more, final, split, headed⟩
          exact ⟨lead, keyword, more, final, split, headed⟩
      · next others =>
          cases found
          rw [row_cons some] at formReads
          rcases reads_seq_iff.mp formReads with ⟨more, word, after⟩
          -- An extension, where another keyword follows the first.
          have start : text = "extend".toList ++ more := reads_word_iff.mp (reads_rule_iff.mp word)
          subst start
          rcases headed_of_others checked (List.mem_singleton_self _) after (Or.inl rfl)
            (by simp [bodilessKeywords]) with ⟨final, headed⟩
          exact ⟨[], "extend", more, final, rfl, headed⟩
      · next others =>
          cases found
          rw [row_cons some] at formReads
          rcases reads_seq_iff.mp formReads with ⟨more, word, after⟩
          -- The keyword of an operation.
          rcases exists_operationType word with ⟨keyword, listed, without, rfl⟩
          rcases headed_of_others checked listed after (Or.inl rfl)
            (fun member => absurd member without) with ⟨final, headed⟩
          exact ⟨[], keyword, more, final, rfl, headed⟩
      · next keyword others =>
          cases found
          -- A keyword that nothing describes.
          have heads : keyword ∈ bodilessKeywords → Bodiless text := fun without =>
            ⟨⟨false, false, keyword⟩, without, heads_of_reads rfl solid formReads⟩
          rw [row_cons some] at formReads
          rcases reads_seq_iff.mp formReads with ⟨more, word, after⟩
          have start := reads_word_iff.mp word
          subst start
          rcases headed_of_others checked (List.mem_singleton_self _) after (Or.inl rfl) heads with
            ⟨final, headed⟩
          exact ⟨[], keyword, more, final, rfl, headed⟩
      · cases found

end Headed

end PreviewLint.GraphQL
