import PreviewLint.Peg.Matcher

/-!
# What parsing expressions read

The matcher carries offsets, trees, bounds on repetitions and on calls. This file says
what parsing expressions mean without any of these: `Peg.Reads` relates an expression and
a text to the text that is left after a match, or to a failure. The relation follows the
expressions and has no bounds.

The matcher agrees with the relation on every grammar that keeps its promises
(`Grammar.Orderly`): calls without progress go down in rank, and what is repeated reads
something. From here on, statements about matches are statements about texts.
-/

namespace PreviewLint

variable {R : Type}

namespace Grammar

variable (grammar : Grammar R)

/-- The text after the blanks at its beginning. -/
def afterBlanks (text : List Char) : List Char := (grammar.skip (.ofText text)).rest

/-- The text at which the next part of a sequence begins. -/
def gap (spacing : Spacing) (text : List Char) : List Char :=
  if spacing = .spaced then grammar.afterBlanks text else text

end Grammar

namespace Peg

/-- What is left of a text after an expression has matched, or `none` if it does not match. -/
inductive Reads (grammar : Grammar R) : Spacing → Peg R → List Char → Option (List Char) → Prop
  | empty {spacing text} : Reads grammar spacing .empty text (some text)
  | char {spacing accepts character rest} (accepted : accepts character = true) :
      Reads grammar spacing (.char accepts) (character :: rest) (some rest)
  | char_refused {spacing accepts text} (refused : text.head?.any accepts = false) :
      Reads grammar spacing (.char accepts) text none
  | word {spacing} {fixed : String} {rest} :
      Reads grammar spacing (.word fixed) (fixed.toList ++ rest) (some rest)
  | word_refused {spacing} {fixed : String} {text} (refused : ¬fixed.toList <+: text) :
      Reads grammar spacing (.word fixed) text none
  | rule {spacing name text answer}
      (body : Reads grammar (spacing.inside (grammar.spacing name)) (grammar.body name) text answer) :
      Reads grammar spacing (.rule name) text answer
  | seq {spacing first second text middle answer}
      (before : Reads grammar spacing first text (some middle))
      (after : Reads grammar spacing second (grammar.gap spacing middle) answer) :
      Reads grammar spacing (.seq first second) text answer
  | seq_refused {spacing first second text} (before : Reads grammar spacing first text none) :
      Reads grammar spacing (.seq first second) text none
  | choice_first {spacing first second text rest}
      (chosen : Reads grammar spacing first text (some rest)) :
      Reads grammar spacing (.choice first second) text (some rest)
  | choice_second {spacing first second text answer}
      (refused : Reads grammar spacing first text none)
      (chosen : Reads grammar spacing second text answer) :
      Reads grammar spacing (.choice first second) text answer
  | maybe {spacing body text rest} (present : Reads grammar spacing body text (some rest)) :
      Reads grammar spacing (.maybe body) text (some rest)
  | maybe_none {spacing body text} (missing : Reads grammar spacing body text none) :
      Reads grammar spacing (.maybe body) text (some text)
  | many_none {spacing body text} (missing : Reads grammar spacing body text none) :
      Reads grammar spacing (.many body) text (some text)
  | many_last {spacing body text middle} (present : Reads grammar spacing body text (some middle))
      (missing : Reads grammar spacing body (grammar.gap spacing middle) none) :
      Reads grammar spacing (.many body) text (some middle)
  | many_more {spacing body text middle next rest}
      (present : Reads grammar spacing body text (some middle))
      (again : Reads grammar spacing body (grammar.gap spacing middle) (some next))
      (more : Reads grammar spacing (.many body) (grammar.gap spacing middle) (some rest)) :
      Reads grammar spacing (.many body) text (some rest)
  | absent {spacing body text} (missing : Reads grammar spacing body text none) :
      Reads grammar spacing (.absent body) text (some text)
  | absent_refused {spacing body text rest}
      (present : Reads grammar spacing body text (some rest)) :
      Reads grammar spacing (.absent body) text none

section Reads

variable {grammar : Grammar R} {spacing : Spacing} {text : List Char}

/-- An expression reads a text in one way only. -/
theorem Reads.unique {expression : Peg R} {answer other : Option (List Char)}
    (first : Reads grammar spacing expression text answer)
    (second : Reads grammar spacing expression text other) : answer = other := by
  induction first generalizing other with
  | empty => cases second; rfl
  | char accepted =>
      cases second with
      | char => rfl
      | char_refused refused => simp [accepted] at refused
  | char_refused refused =>
      cases second with
      | char accepted => simp [accepted] at refused
      | char_refused => rfl
  | @word spacing fixed rest =>
      generalize same : fixed.toList ++ rest = whole at second
      cases second with
      | word => rw [List.append_cancel_left same]
      | word_refused refused => exact absurd ⟨rest, same⟩ refused
  | word_refused refused =>
      cases second with
      | word => exact absurd (List.prefix_append _ _) refused
      | word_refused => rfl
  | rule _ ih =>
      cases second with
      | rule body => exact ih body
  | seq _ _ before after =>
      cases second with
      | seq other rest =>
          cases before other
          exact after rest
      | seq_refused other => cases before other
  | seq_refused _ before =>
      cases second with
      | seq other => cases before other
      | seq_refused => rfl
  | choice_first _ ih =>
      cases second with
      | choice_first other => exact ih other
      | choice_second other => cases ih other
  | choice_second _ _ refused chosen =>
      cases second with
      | choice_first other => cases refused other
      | choice_second _ other => exact chosen other
  | maybe _ ih =>
      cases second with
      | maybe other => exact ih other
      | maybe_none other => cases ih other
  | maybe_none _ ih =>
      cases second with
      | maybe other => cases ih other
      | maybe_none => rfl
  | many_none _ ih =>
      cases second with
      | many_none => rfl
      | many_last other => cases ih other
      | many_more other => cases ih other
  | many_last _ _ present missing =>
      cases second with
      | many_none other => cases present other
      | many_last other => exact present other
      | many_more other again =>
          cases present other
          cases missing again
  | many_more _ _ _ present again more =>
      cases second with
      | many_none other => cases present other
      | many_last other last =>
          cases present other
          cases again last
      | many_more other _ rest =>
          cases present other
          exact more rest
  | absent _ ih =>
      cases second with
      | absent => rfl
      | absent_refused other => cases ih other
  | absent_refused _ ih =>
      cases second with
      | absent other => cases ih other
      | absent_refused => rfl

variable {first second body : Peg R} {rest : List Char} {answer : Option (List Char)}

theorem reads_empty_iff : empty.Reads grammar spacing text answer ↔ answer = some text :=
  ⟨fun reads => reads.unique .empty, fun same => same ▸ .empty⟩

theorem reads_char_iff {accepts : Char → Bool} :
    (char accepts).Reads grammar spacing text (some rest) ↔
      ∃ character, text = character :: rest ∧ accepts character := by
  constructor
  · rintro (_ | @⟨_, _, character, _, accepted⟩)
    exact ⟨character, rfl, accepted⟩
  · rintro ⟨character, rfl, accepted⟩
    exact .char accepted

theorem reads_char_none_iff {accepts : Char → Bool} :
    (char accepts).Reads grammar spacing text none ↔ text.head?.any accepts = false := by
  constructor
  · rintro (_ | _ | refused)
    exact refused
  · exact .char_refused

theorem reads_word_iff {fixed : String} :
    (word fixed).Reads grammar spacing text (some rest) ↔ text = fixed.toList ++ rest := by
  constructor
  · rintro (_ | _ | _ | _)
    rfl
  · rintro rfl
    exact .word

theorem reads_word_none_iff {fixed : String} :
    (word fixed).Reads grammar spacing text none ↔ ¬fixed.toList <+: text := by
  constructor
  · rintro (_ | _ | _ | _ | refused)
    exact refused
  · exact .word_refused

theorem reads_rule_iff {name : R} :
    (rule name).Reads grammar spacing text answer ↔
      (grammar.body name).Reads grammar (spacing.inside (grammar.spacing name)) text answer := by
  constructor
  · rintro (_ | _ | _ | _ | _ | body)
    exact body
  · exact .rule

theorem reads_seq_iff :
    (first ++ second).Reads grammar spacing text (some rest) ↔
      ∃ middle, first.Reads grammar spacing text (some middle) ∧
        second.Reads grammar spacing (grammar.gap spacing middle) (some rest) := by
  constructor
  · intro reads
    cases reads with
    | seq before after => exact ⟨_, before, after⟩
  · rintro ⟨middle, before, after⟩
    exact .seq before after

theorem reads_seq_none_iff :
    (first ++ second).Reads grammar spacing text none ↔
      first.Reads grammar spacing text none ∨
        ∃ middle, first.Reads grammar spacing text (some middle) ∧
          second.Reads grammar spacing (grammar.gap spacing middle) none := by
  constructor
  · intro reads
    cases reads with
    | seq before after => exact Or.inr ⟨_, before, after⟩
    | seq_refused before => exact Or.inl before
  · rintro (before | ⟨middle, before, after⟩)
    · exact .seq_refused before
    · exact .seq before after

theorem reads_assoc_iff {third : Peg R} :
    (first ++ second ++ third).Reads grammar spacing text answer ↔
      (first ++ (second ++ third)).Reads grammar spacing text answer := by
  constructor
  · intro reads
    cases reads with
    | seq before after =>
        cases before with
        | seq before between => exact .seq before (.seq between after)
    | seq_refused before =>
        cases before with
        | seq before between => exact .seq before (.seq_refused between)
        | seq_refused before => exact .seq_refused before
  · intro reads
    cases reads with
    | seq before after =>
        cases after with
        | seq between after => exact .seq (.seq before between) after
        | seq_refused between => exact .seq_refused (.seq before between)
    | seq_refused before => exact .seq_refused (.seq_refused before)

theorem reads_choice_iff :
    (first ||| second).Reads grammar spacing text (some rest) ↔
      first.Reads grammar spacing text (some rest) ∨
        first.Reads grammar spacing text none ∧ second.Reads grammar spacing text (some rest) := by
  constructor
  · intro reads
    cases reads with
    | choice_first chosen => exact Or.inl chosen
    | choice_second refused chosen => exact Or.inr ⟨refused, chosen⟩
  · rintro (chosen | ⟨refused, chosen⟩)
    · exact .choice_first chosen
    · exact .choice_second refused chosen

theorem reads_choice_none_iff :
    (first ||| second).Reads grammar spacing text none ↔
      first.Reads grammar spacing text none ∧ second.Reads grammar spacing text none := by
  constructor
  · intro reads
    cases reads with
    | choice_second refused other => exact ⟨refused, other⟩
  · rintro ⟨refused, other⟩
    exact .choice_second refused other

theorem reads_maybe_iff :
    body.maybe.Reads grammar spacing text (some rest) ↔
      body.Reads grammar spacing text (some rest) ∨
        body.Reads grammar spacing text none ∧ rest = text := by
  constructor
  · intro reads
    cases reads with
    | maybe present => exact Or.inl present
    | maybe_none missing => exact Or.inr ⟨missing, rfl⟩
  · rintro (present | ⟨missing, rfl⟩)
    · exact .maybe present
    · exact .maybe_none missing

theorem reads_absent_iff :
    body.absent.Reads grammar spacing text (some rest) ↔
      body.Reads grammar spacing text none ∧ rest = text := by
  constructor
  · intro reads
    cases reads with
    | absent missing => exact ⟨missing, rfl⟩
  · rintro ⟨missing, rfl⟩
    exact .absent missing

/-- What holds where a repetition ends holds where it begins, if every round keeps it. -/
theorem Reads.many_induction {motive : List Char → Prop}
    (reads : body.many.Reads grammar spacing text (some rest))
    (missing : body.Reads grammar spacing rest none → motive rest)
    (last : ∀ {text}, body.Reads grammar spacing text (some rest) →
      body.Reads grammar spacing (grammar.gap spacing rest) none → motive text)
    (more : ∀ {text middle}, body.Reads grammar spacing text (some middle) →
      motive (grammar.gap spacing middle) → motive text) : motive text := by
  generalize expressed : body.many = expression at reads
  generalize found : some rest = answer at reads
  induction reads with
  | many_none refused =>
      cases expressed
      cases found
      exact missing refused
  | many_last present refused =>
      cases expressed
      cases found
      exact last present refused
  | many_more present _ _ _ _ ih =>
      cases expressed
      exact more present (ih missing last more rfl found)
  | _ => cases expressed

theorem gap_of_ne_spaced (joined : spacing ≠ .spaced) : grammar.gap spacing text = text :=
  if_neg joined

theorem Reads.many_cons (joined : spacing ≠ .spaced) {middle : List Char}
    (present : body.Reads grammar spacing text (some middle))
    (rounds : body.many.Reads grammar spacing middle (some rest)) :
    body.many.Reads grammar spacing text (some rest) := by
  have same : grammar.gap spacing middle = middle := gap_of_ne_spaced joined
  have again := rounds
  rw [← same] at again
  cases rounds with
  | many_none missing => exact .many_last present (same.symm ▸ missing)
  | many_last next missing => exact .many_more present (same.symm ▸ next) again
  | many_more next => exact .many_more present (same.symm ▸ next) again

end Reads

/-! ## Promises of a grammar -/

/-- Whether an expression may match without reading anything, as far as can be seen. -/
def nullable (known : R → Bool) : Peg R → Bool
  | .empty => true
  | .char _ => false
  | .word fixed => fixed.isEmpty
  | .rule name => known name
  | .seq first second => first.nullable known && second.nullable known
  | .choice first second => first.nullable known || second.nullable known
  | .maybe _ | .many _ | .absent _ => true

/-- Whether all that is repeated in an expression reads something. -/
def progresses (known : R → Bool) : Peg R → Bool
  | .empty | .char _ | .word _ | .rule _ => true
  | .seq first second | .choice first second => first.progresses known && second.progresses known
  | .maybe body | .absent body => body.progresses known
  | .many body => body.progresses known && !body.nullable known

/-- Whether an expression calls only rules with `below` before it has read anything. -/
def enters (known : R → Bool) (below : R → Bool) : Peg R → Bool
  | .empty | .char _ | .word _ => true
  | .rule name => below name
  | .seq first second =>
    first.enters known below && (!first.nullable known || second.enters known below)
  | .choice first second => first.enters known below && second.enters known below
  | .maybe body | .many body | .absent body => body.enters known below

end Peg

/--
A grammar whose rules end: `known` tells which of them may match without reading anything,
what is repeated reads something, and a rule that is called without progress has a lower
rank.
-/
structure Grammar.Orderly (grammar : Grammar R) (known : R → Bool) : Prop where
  skip_rest (cursor : Cursor) :
    (grammar.skip cursor).rest = grammar.afterBlanks cursor.rest
  skip_offset (cursor : Cursor) :
    (grammar.skip cursor).offset + (grammar.skip cursor).rest.length =
      cursor.offset + cursor.rest.length
  skip_forward (cursor : Cursor) : cursor.offset ≤ (grammar.skip cursor).offset
  afterBlanks_suffix (text : List Char) : grammar.afterBlanks text <:+ text
  rank_lt (name : R) : grammar.rank name < grammar.ranks
  nullable_body (name : R) : (grammar.body name).nullable known → known name
  progresses_body (name : R) : (grammar.body name).progresses known
  enters_body (name : R) :
    (grammar.body name).enters known fun other => decide (grammar.rank other < grammar.rank name)

/-! ## The matcher follows the expressions -/

namespace Outcome

@[simp]
theorem result_success (trees : List (Tree R)) (cursor : Cursor) :
    (success trees cursor).result = some (trees, cursor) := rfl

@[simp]
theorem result_failure : (failure : Outcome R).result = none := rfl

@[simp]
theorem result_noting (offset : Nat) (outcome : Outcome R) :
    (outcome.noting offset).result = outcome.result := rfl

theorem result_andThen (outcome : Outcome R) (next : Cursor → Outcome R) :
    (outcome.andThen next).result = outcome.result.bind fun (trees, cursor) =>
      (next cursor).result.map fun (more, stop) => (trees ++ more, stop) := by
  obtain ⟨furthest, result⟩ := outcome
  cases result <;> rfl

theorem result_orElse (outcome : Outcome R) (other : Unit → Outcome R) :
    (outcome.orElse other).result = outcome.result.or (other ()).result := by
  obtain ⟨furthest, result⟩ := outcome
  cases result <;> rfl

end Outcome

/-- A place in a text of `size` characters. -/
def Cursor.Within (size : Nat) (cursor : Cursor) : Prop :=
  cursor.offset + cursor.rest.length = size

theorem Cursor.ofText_within (text : List Char) : (Cursor.ofText text).Within text.length :=
  Nat.zero_add _

namespace Grammar

/-- The place at which the next part of a sequence begins. -/
def place (grammar : Grammar R) (spacing : Spacing) (cursor : Cursor) : Cursor :=
  if spacing = .spaced then grammar.skip cursor else cursor

namespace Orderly

variable {grammar : Grammar R} {known : R → Bool} (orderly : grammar.Orderly known)
include orderly

theorem place_rest (spacing : Spacing) (cursor : Cursor) :
    (grammar.place spacing cursor).rest = grammar.gap spacing cursor.rest := by
  rw [place, gap]
  split
  · exact orderly.skip_rest cursor
  · rfl

theorem place_within {size : Nat} {cursor : Cursor} (within : cursor.Within size)
    (spacing : Spacing) : (grammar.place spacing cursor).Within size := by
  rw [place]
  split
  · exact (orderly.skip_offset cursor).trans within
  · exact within

theorem place_forward (spacing : Spacing) (cursor : Cursor) :
    cursor.offset ≤ (grammar.place spacing cursor).offset := by
  rw [place]
  split
  · exact orderly.skip_forward cursor
  · exact Nat.le_refl _

end Orderly

/-- An answer of the matcher at a place that says what the expression reads there. -/
inductive Follows (grammar : Grammar R) (known : R → Bool) (size : Nat) (spacing : Spacing)
    (expression : Peg R) (cursor : Cursor) : Option (List (Tree R) × Cursor) → Prop
  | failure (reads : expression.Reads grammar spacing cursor.rest none) :
      Follows grammar known size spacing expression cursor none
  | success {trees stop} (reads : expression.Reads grammar spacing cursor.rest (some stop.rest))
      (within : stop.Within size) (forward : cursor.offset ≤ stop.offset)
      (progress : stop.offset = cursor.offset → expression.nullable known) :
      Follows grammar known size spacing expression cursor (some (trees, stop))

end Grammar

namespace Peg

open Grammar

theorem enters_of_forall {known below : R → Bool} (all : ∀ name, below name) (expression : Peg R) :
    expression.enters known below := by
  induction expression <;> simp_all [enters]

section Repeated

variable {grammar : Grammar R} {known : R → Bool} {size : Nat} {spacing : Spacing} {body : Peg R}
  {step : Cursor → Outcome R}

/-- Repetitions go on until the expression fails, since there are more attempts than characters. -/
theorem repeated_follows (orderly : grammar.Orderly known) (reading : body.nullable known = false)
    {count : Nat} {start : Cursor} (within : start.Within size)
    (steps : ∀ place : Cursor, place.Within size → start.offset ≤ place.offset →
      Follows grammar known size spacing body place (step place).result)
    (enough : size - start.offset < count) :
    ∃ trees stop,
      (repeated (fun middle => step (grammar.place spacing middle)) count start).result =
        some (trees, stop) ∧ stop.Within size ∧ start.offset ≤ stop.offset ∧
      (stop = start ∧ body.Reads grammar spacing (grammar.gap spacing start.rest) none ∨
        (∃ next, body.Reads grammar spacing (grammar.gap spacing start.rest) (some next)) ∧
          (many body).Reads grammar spacing (grammar.gap spacing start.rest)
            (some stop.rest)) := by
  induction count generalizing start with
  | zero => omega
  | succ count ih =>
      have there := steps (grammar.place spacing start) (orderly.place_within within spacing)
        (orderly.place_forward spacing start)
      have ahead := orderly.place_forward spacing start
      simp only [repeated, Outcome.result_orElse, Outcome.result_andThen]
      rw [← orderly.place_rest spacing start]
      generalize (step (grammar.place spacing start)).result = found at there
      cases there with
      | failure reads => exact ⟨[], start, rfl, within, Nat.le_refl _, Or.inl ⟨rfl, reads⟩⟩
      | @success trees middle reads middleWithin forward progress =>
          -- A round that stays where it is would be one that can read nothing.
          have further : (grammar.place spacing start).offset < middle.offset := by
            refine Nat.lt_of_le_of_ne forward fun same => ?_
            rw [progress same.symm] at reading
            cases reading
          have onward : start.offset < middle.offset := by omega
          have left : size - middle.offset < count := by
            have bound : middle.offset ≤ size := by
              rw [← middleWithin]
              exact Nat.le_add_right _ _
            omega
          rcases ih middleWithin (fun place placeWithin later => steps place placeWithin
            (by omega)) left with ⟨more, stop, result, stopWithin, stopForward, rest⟩
          refine ⟨trees ++ more, stop, ?_, stopWithin, by omega, Or.inr ⟨⟨_, reads⟩, ?_⟩⟩
          · simp [result]
          · rcases rest with ⟨rfl, missing⟩ | ⟨⟨next, again⟩, more⟩
            · exact .many_last reads missing
            · exact .many_more reads again more

end Repeated

section Answers

variable {grammar : Grammar R} {known : R → Bool} {size : Nat} {spacing : Spacing}
  {first second body : Peg R} {cursor : Cursor}

theorem follows_char {offset : Nat} {character : Char} {rest : List Char} {accepts : Char → Bool}
    (within : (Cursor.mk offset (character :: rest)).Within size)
    (accepted : accepts character = true) :
    Follows grammar known size spacing (.char accepts) ⟨offset, character :: rest⟩
      (some ([], ⟨offset + 1, rest⟩)) := by
  refine .success (.char accepted) ?_ (Nat.le_succ _) fun same => absurd same (Nat.succ_ne_self _)
  simp only [Cursor.Within, List.length_cons] at within ⊢
  omega

theorem follows_word {offset : Nat} {fixed : String} {rest : List Char}
    (within : (Cursor.mk offset (fixed.toList ++ rest)).Within size) :
    Follows grammar known size spacing (.word fixed) ⟨offset, fixed.toList ++ rest⟩
      (some ([], ⟨offset + fixed.length, rest⟩)) := by
  refine .success .word ?_ (Nat.le_add_right _ _) fun same => ?_
  · simp only [Cursor.Within, List.length_append, String.length_toList] at within ⊢
    omega
  · have none : fixed.length = 0 := by
      simp only at same
      omega
    rw [nullable, String.isEmpty_iff, ← String.length_eq_zero_iff, none]

theorem follows_seq (orderly : grammar.Orderly known) {found : Option (List (Tree R) × Cursor)}
    (next : Cursor → Option (List (Tree R) × Cursor))
    (before : Follows grammar known size spacing first cursor found)
    (after : ∀ middle : Cursor, middle.Within size → cursor.offset ≤ middle.offset →
      (middle.offset = cursor.offset → first.nullable known) →
        Follows grammar known size spacing second (grammar.place spacing middle)
          (next (grammar.place spacing middle))) :
    Follows grammar known size spacing (first.seq second) cursor (found.bind fun answer =>
      (next (grammar.place spacing answer.2)).map fun more => (answer.1 ++ more.1, more.2)) := by
  cases before with
  | failure reads => exact .failure (.seq_refused reads)
  | @success trees middle reads middleWithin forward firstProgress =>
      have later := orderly.place_forward spacing middle
      have rest := after middle middleWithin forward firstProgress
      rw [Option.bind_some]
      generalize next (grammar.place spacing middle) = answer at rest
      cases rest with
      | failure secondReads =>
          rw [orderly.place_rest] at secondReads
          exact .failure (.seq reads secondReads)
      | @success more stop secondReads stopWithin stopForward secondProgress =>
          rw [orderly.place_rest] at secondReads
          change Follows grammar known size spacing (first.seq second) cursor
            (some (trees ++ more, stop))
          refine .success (.seq reads secondReads) stopWithin (by omega) fun same => ?_
          rw [nullable, firstProgress (by omega), secondProgress (by omega), Bool.and_self]

theorem follows_choice {found other : Option (List (Tree R) × Cursor)}
    (chosen : Follows grammar known size spacing first cursor found)
    (otherwise : Follows grammar known size spacing second cursor other) :
    Follows grammar known size spacing (first.choice second) cursor (found.or other) := by
  cases chosen with
  | success reads stopWithin forward firstProgress =>
      refine .success (.choice_first reads) stopWithin forward fun same => ?_
      rw [nullable, firstProgress same, Bool.true_or]
  | failure refused =>
      cases otherwise with
      | failure reads => exact .failure (.choice_second refused reads)
      | success reads stopWithin forward secondProgress =>
          refine .success (.choice_second refused reads) stopWithin forward fun same => ?_
          rw [nullable, secondProgress same, Bool.or_true]

theorem follows_maybe (within : cursor.Within size) {found : Option (List (Tree R) × Cursor)}
    (present : Follows grammar known size spacing body cursor found) :
    Follows grammar known size spacing body.maybe cursor (found.or (some ([], cursor))) := by
  cases present with
  | failure missing => exact .success (.maybe_none missing) within (Nat.le_refl _) fun _ => rfl
  | success reads stopWithin forward => exact .success (.maybe reads) stopWithin forward fun _ => rfl

theorem follows_many (orderly : grammar.Orderly known) (reading : body.nullable known = false)
    (within : cursor.Within size) (step : Cursor → Outcome R)
    (here : Follows grammar known size spacing body cursor (step cursor).result)
    (steps : ∀ place : Cursor, place.Within size → cursor.offset < place.offset →
      Follows grammar known size spacing body place (step place).result) :
    Follows grammar known size spacing body.many cursor (((step cursor).result.bind fun answer =>
      (repeated (fun middle => step (grammar.place spacing middle)) (size - answer.2.offset + 1)
        answer.2).result.map fun more => (answer.1 ++ more.1, more.2)).or (some ([], cursor))) := by
  generalize (step cursor).result = found at here
  cases here with
  | failure missing => exact .success (.many_none missing) within (Nat.le_refl _) fun _ => rfl
  | @success trees middle reads middleWithin forward progress =>
      have further : cursor.offset < middle.offset := by
        refine Nat.lt_of_le_of_ne forward fun same => ?_
        rw [progress same.symm] at reading
        cases reading
      rcases repeated_follows orderly reading middleWithin
        (fun place placeWithin later => steps place placeWithin (by omega))
        (Nat.lt_succ_self _) with ⟨more, stop, result, stopWithin, stopForward, rest⟩
      rw [Option.bind_some, result]
      change Follows grammar known size spacing body.many cursor (some (trees ++ more, stop))
      refine .success ?_ stopWithin (by omega) fun _ => rfl
      rcases rest with ⟨rfl, missing⟩ | ⟨⟨next, again⟩, more⟩
      · exact .many_last reads missing
      · exact .many_more reads again more

end Answers

section Run

variable {grammar : Grammar R} {known : R → Bool} {size bound : Nat}

/-- Whatever may be called at a place may be called further on. -/
theorem enters_later {expression : Peg R} {cursor place : Cursor}
    (ahead : ∀ later : Cursor, later.Within size → cursor.offset < later.offset →
      ∀ name, grammar.weight size name later < bound)
    (within : place.Within size) (forward : cursor.offset ≤ place.offset)
    (here : place.offset = cursor.offset →
      expression.enters known fun name => decide (grammar.weight size name cursor < bound)) :
    expression.enters known fun name => decide (grammar.weight size name place < bound) := by
  rcases Nat.eq_or_lt_of_le forward with same | further
  · have weights : ∀ name, grammar.weight size name place = grammar.weight size name cursor := by
      intro name
      rw [weight, weight, same]
    simp only [weights]
    exact here same.symm
  · apply enters_of_forall
    intro name
    exact decide_eq_true (ahead place within further name)

variable {call : (rule : R) → Spacing → Bool → (cursor : Cursor) →
  grammar.weight size rule cursor < bound → Outcome R}

/-- The matcher answers with what an expression reads, if its calls do. -/
theorem run_follows (orderly : grammar.Orderly known)
    (calls : ∀ name inner negated (place : Cursor) lower, place.Within size →
      Follows grammar known size inner (.rule name) place (call name inner negated place lower).result)
    (spacing : Spacing) (negated : Bool) (expression : Peg R) {cursor : Cursor}
    (within : cursor.Within size)
    (ahead : ∀ later : Cursor, later.Within size → cursor.offset < later.offset →
      ∀ name, grammar.weight size name later < bound)
    (here : expression.enters known fun name => decide (grammar.weight size name cursor < bound))
    (progress : expression.progresses known) :
    Follows grammar known size spacing expression cursor
      (run grammar.skip size (grammar.weight size) bound call spacing negated expression
        cursor).result := by
  induction expression generalizing negated cursor with
  | empty => exact .success .empty within (Nat.le_refl _) fun _ => rfl
  | char accepts =>
      obtain ⟨offset, rest⟩ := cursor
      cases rest with
      | nil => exact .failure (.char_refused rfl)
      | cons character rest =>
          simp only [run]
          split
          · next accepted => exact follows_char within accepted
          · next refused => exact .failure (.char_refused (by simpa using refused))
  | word fixed =>
      obtain ⟨offset, text⟩ := cursor
      simp only [run]
      split
      · next accepted =>
          obtain ⟨rest, rfl⟩ := List.isPrefixOf_iff_prefix.mp accepted
          have after : (fixed.toList ++ rest).drop fixed.length = rest := by
            rw [← String.length_toList, List.drop_left]
          rw [after]
          exact follows_word within
      · next refused =>
          exact .failure (.word_refused fun accepted =>
            refused (List.isPrefixOf_iff_prefix.mpr accepted))
  | rule name =>
      have lower := of_decide_eq_true here
      simp only [run, dif_pos lower]
      exact calls name spacing negated cursor lower within
  | seq first second firstRuns secondRuns =>
      simp only [enters, progresses, Bool.and_eq_true, Bool.or_eq_true, Bool.not_eq_true'] at here progress
      simp only [run, Outcome.result_andThen]
      apply follows_seq orderly (fun place => (run grammar.skip size (grammar.weight size) bound
        call spacing negated second place).result)
        (firstRuns negated within ahead here.1 progress.1)
      intro middle middleWithin forward firstProgress
      have later := orderly.place_forward spacing middle
      refine secondRuns negated (orderly.place_within middleWithin spacing)
        (fun place within further => ahead place within (by omega)) ?_ progress.2
      -- The second part stands where the first does only if the first has read nothing.
      apply enters_later ahead (orderly.place_within middleWithin spacing) (by omega)
      intro same
      exact here.2.resolve_left (by rw [firstProgress (by omega)]; simp)
  | choice first second firstRuns secondRuns =>
      simp only [enters, progresses, Bool.and_eq_true] at here progress
      simp only [run, Outcome.result_orElse]
      exact follows_choice (firstRuns negated within ahead here.1 progress.1)
        (secondRuns negated within ahead here.2 progress.2)
  | maybe body runs =>
      simp only [run, Outcome.result_orElse]
      exact follows_maybe within (runs negated within ahead here progress)
  | many body runs =>
      simp only [progresses, Bool.and_eq_true, Bool.not_eq_true'] at progress
      simp only [run, Outcome.result_orElse, Outcome.result_andThen]
      apply follows_many orderly progress.2 within (run grammar.skip size (grammar.weight size)
        bound call spacing negated body) (runs negated within ahead here progress.1)
      -- From the second round on, something was read, and every rule may be called.
      intro place placeWithin further
      exact runs negated placeWithin (fun later within beyond => ahead later within (by omega))
        (enters_later ahead placeWithin (by omega) fun same => by omega) progress.1
  | absent body runs =>
      have found := runs (!negated) within ahead here progress
      simp only [run]
      generalize run grammar.skip size (grammar.weight size) bound call spacing (!negated) body
        cursor = outcome at found
      obtain ⟨furthest, result⟩ := outcome
      cases found with
      | failure missing => exact .success (.absent missing) within (Nat.le_refl _) fun _ => rfl
      | success reads => exact .failure (.absent_refused reads)

end Run

end Peg

namespace Grammar

variable {grammar : Grammar R} {known : R → Bool}

theorem result_call (grammar : Grammar R) (size : Nat) (name : R) (caller : Spacing)
    (negated : Bool) (cursor : Cursor) :
    (grammar.call size name caller negated cursor).result =
      ((grammar.body name).run grammar.skip size (grammar.weight size)
        (grammar.weight size name cursor)
        (fun other inner negation place _ => grammar.call size other inner negation place)
        (caller.inside (grammar.spacing name)) negated cursor).result.map fun (children, stop) =>
          ([.node name cursor stop.offset
            (if grammar.spacing name = .token then [] else children)], stop) := by
  rw [call]
  simp only [apply_ite Outcome.result, Outcome.result_noting, ite_self]

theorem Orderly.weight_lt (orderly : grammar.Orderly known) {size : Nat} {cursor later : Cursor}
    (within : later.Within size) (further : cursor.offset < later.offset) (name other : R) :
    grammar.weight size other later < grammar.weight size name cursor := by
  have rank := orderly.rank_lt other
  have bound : later.offset ≤ size := by
    rw [← within]
    exact Nat.le_add_right _ _
  have step : (size - later.offset + 1) * grammar.ranks ≤ (size - cursor.offset) * grammar.ranks :=
    Nat.mul_le_mul_right _ (by omega)
  rw [Nat.add_mul, Nat.one_mul] at step
  simp only [weight]
  omega

/-- The matcher answers with what a rule reads. -/
theorem Orderly.call_follows (orderly : grammar.Orderly known) (size : Nat) (name : R)
    (caller : Spacing) (negated : Bool) (cursor : Cursor) (within : cursor.Within size) :
    Follows grammar known size caller (.rule name) cursor
      (grammar.call size name caller negated cursor).result := by
  rw [result_call]
  have body := Peg.run_follows orderly
    (fun other inner negation place lower placeWithin =>
      Orderly.call_follows orderly size other inner negation place placeWithin)
    (caller.inside (grammar.spacing name)) negated (grammar.body name) within
    (fun later laterWithin further other => orderly.weight_lt laterWithin further name other)
    (by simpa [weight] using orderly.enters_body name) (orderly.progresses_body name)
  generalize ((grammar.body name).run grammar.skip size _ _ _ _ negated cursor).result = found at body
  cases body with
  | failure reads => exact .failure (.rule reads)
  | success reads stopWithin forward progress =>
      exact .success (.rule reads) stopWithin forward fun same => orderly.nullable_body name (progress same)
termination_by grammar.weight size name cursor

theorem Orderly.gap_suffix (orderly : grammar.Orderly known) (spacing : Spacing)
    (text : List Char) : grammar.gap spacing text <:+ text := by
  rw [gap]
  split
  · exact orderly.afterBlanks_suffix text
  · exact List.suffix_refl text

/-- What is left after a match is the end of the text. -/
theorem Orderly.suffix_of_reads (orderly : grammar.Orderly known) {spacing : Spacing}
    {expression : Peg R} {text rest : List Char}
    (reads : expression.Reads grammar spacing text (some rest)) : rest <:+ text := by
  generalize found : some rest = answer at reads
  induction reads generalizing rest with
  | empty | maybe_none | many_none | absent =>
      cases found
      exact List.suffix_refl _
  | char => exact Option.some.inj found ▸ List.suffix_cons _ _
  | word => exact Option.some.inj found ▸ List.suffix_append _ _
  | rule _ ih | choice_first _ ih | choice_second _ _ _ ih | maybe _ ih | many_last _ _ ih =>
      exact ih found
  | seq _ _ before after =>
      exact (after found).trans ((orderly.gap_suffix _ _).trans (before rfl))
  | many_more _ _ _ before _ more =>
      exact (more found).trans ((orderly.gap_suffix _ _).trans (before rfl))
  | char_refused | word_refused | seq_refused | absent_refused => cases found

/-- What matches without reading anything may do so. -/
theorem Orderly.nullable_of_reads (orderly : grammar.Orderly known) {spacing : Spacing}
    {expression : Peg R} {text rest : List Char}
    (reads : expression.Reads grammar spacing text (some rest))
    (same : text.length ≤ rest.length) : expression.nullable known := by
  generalize found : some rest = answer at reads
  induction reads generalizing rest with
  | empty | maybe_none | many_none | absent | maybe | many_last | many_more => rfl
  | char =>
      cases found
      simp only [List.length_cons] at same
      omega
  | @word spacing fixed text =>
      cases found
      rw [List.length_append, String.length_toList] at same
      rw [Peg.nullable, String.isEmpty_iff, ← String.length_eq_zero_iff]
      omega
  | rule _ ih => exact orderly.nullable_body _ (ih same found)
  | @seq spacing first second text middle answer before after firstNull secondNull =>
      subst found
      have middleShort := (orderly.suffix_of_reads before).length_le
      have gapShort := (orderly.gap_suffix spacing middle).length_le
      have restShort := (orderly.suffix_of_reads after).length_le
      rw [Peg.nullable, firstNull (by omega) rfl, secondNull (by omega) rfl, Bool.and_self]
  | choice_first _ ih => rw [Peg.nullable, ih same found, Bool.true_or]
  | choice_second _ _ _ ih => rw [Peg.nullable, ih same found, Bool.or_true]
  | char_refused | word_refused | seq_refused | absent_refused => cases found

/-- What reads something at every text where it matches can be repeated at every text. -/
theorem Orderly.exists_reads_many (orderly : grammar.Orderly known) {spacing : Spacing} {body : Peg R}
    (reading : body.nullable known = false)
    (reads : ∀ text, ∃ answer, body.Reads grammar spacing text answer) (text : List Char) :
    ∃ rest, body.many.Reads grammar spacing text (some rest) := by
  -- Each round leaves a shorter text, so the induction is on its length.
  generalize size : text.length = length
  induction length using Nat.strongRecOn generalizing text with
  | _ length ih =>
      rcases reads text with ⟨_ | middle, present⟩
      · exact ⟨_, .many_none present⟩
      · rcases reads (grammar.gap spacing middle) with ⟨_ | next, again⟩
        · exact ⟨_, .many_last present again⟩
        · have shorter : middle.length < text.length := by
            refine Nat.lt_of_not_le fun longer => ?_
            rw [orderly.nullable_of_reads present longer] at reading
            cases reading
          have gapShort := (orderly.gap_suffix spacing middle).length_le
          rcases ih (grammar.gap spacing middle).length (by omega) _ rfl with ⟨rest, more⟩
          exact ⟨rest, .many_more present again more⟩

/-- Every expression has an answer at every text, if what it repeats reads something. -/
theorem Orderly.exists_reads (orderly : grammar.Orderly known) (spacing : Spacing)
    (expression : Peg R) (progress : expression.progresses known) (text : List Char) :
    ∃ answer, expression.Reads grammar spacing text answer := by
  induction expression generalizing text with
  | empty => exact ⟨_, .empty⟩
  | char accepts =>
      cases accepted : text.head?.any accepts with
      | false => exact ⟨_, .char_refused accepted⟩
      | true =>
          cases text with
          | nil => cases accepted
          | cons character rest => exact ⟨_, .char accepted⟩
  | word fixed =>
      by_cases begins : fixed.toList <+: text
      · rcases begins with ⟨rest, rfl⟩
        exact ⟨_, .word⟩
      · exact ⟨_, .word_refused begins⟩
  | rule name =>
      -- There is no induction over the bodies of rules, but the matcher always answers.
      have follows := orderly.call_follows text.length name spacing false (.ofText text)
        (Cursor.ofText_within text)
      generalize (grammar.call text.length name spacing false (.ofText text)).result = found at follows
      cases follows with
      | failure reads => exact ⟨_, reads⟩
      | success reads => exact ⟨_, reads⟩
  | seq first second firstReads secondReads =>
      simp only [Peg.progresses, Bool.and_eq_true] at progress
      rcases firstReads progress.1 text with ⟨_ | middle, before⟩
      · exact ⟨_, .seq_refused before⟩
      · rcases secondReads progress.2 (grammar.gap spacing middle) with ⟨answer, after⟩
        exact ⟨answer, .seq before after⟩
  | choice first second firstReads secondReads =>
      simp only [Peg.progresses, Bool.and_eq_true] at progress
      rcases firstReads progress.1 text with ⟨_ | rest, chosen⟩
      · rcases secondReads progress.2 text with ⟨answer, other⟩
        exact ⟨answer, .choice_second chosen other⟩
      · exact ⟨_, .choice_first chosen⟩
  | maybe body reads =>
      rcases reads progress text with ⟨_ | rest, present⟩
      · exact ⟨_, .maybe_none present⟩
      · exact ⟨_, .maybe present⟩
  | many body reads =>
      simp only [Peg.progresses, Bool.and_eq_true, Bool.not_eq_true'] at progress
      rcases orderly.exists_reads_many progress.2 (reads progress.1) text with ⟨rest, rounds⟩
      exact ⟨_, rounds⟩
  | absent body reads =>
      rcases reads progress text with ⟨_ | rest, present⟩
      · exact ⟨_, .absent present⟩
      · exact ⟨_, .absent_refused present⟩

/-- The text that is left after a rule has matched at the beginning of a text. -/
def rest? (grammar : Grammar R) (name : R) (text : List Char) : Option (List Char) :=
  (grammar.call text.length name .spaced false (.ofText text)).result.map fun (_, stop) => stop.rest

theorem Follows.reads {size : Nat} {spacing : Spacing} {expression : Peg R} {cursor : Cursor}
    {found : Option (List (Tree R) × Cursor)}
    (follows : Follows grammar known size spacing expression cursor found) :
    expression.Reads grammar spacing cursor.rest (found.map fun answer => answer.2.rest) := by
  cases follows with
  | failure reads => exact reads
  | success reads => exact reads

theorem Orderly.reads_iff (orderly : grammar.Orderly known) {name : R} {text : List Char}
    {answer : Option (List Char)} :
    (Peg.rule name).Reads grammar .spaced text answer ↔ grammar.rest? name text = answer := by
  have follows := orderly.call_follows text.length name .spaced false (.ofText text)
    (Cursor.ofText_within text)
  constructor
  · intro reads
    exact follows.reads.unique reads
  · rintro rfl
    exact follows.reads

end Grammar

end PreviewLint
