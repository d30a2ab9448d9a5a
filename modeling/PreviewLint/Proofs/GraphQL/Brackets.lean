import PreviewLint.Proofs.GraphQL.Lexis

/-!
# Brackets

A text is walked through in units: a comment, a string, or a single character. Brackets
count only where they are units of their own, and a walk keeps track of how many are open.

What a rule reads is always a walk that ends with as many open brackets as it began with.
This is read off the expressions: `effect` computes how many brackets an expression
closes and opens, and every rule below a definition turns out to be balanced.
-/

namespace PreviewLint.GraphQL

open Peg

def isOpening (character : Char) : Bool := character == '{' || character == '(' || character == '['

def isClosing (character : Char) : Bool := character == '}' || character == ')' || character == ']'

/-- Neither a bracket nor the beginning of a string or of a comment. -/
def isPlain (character : Char) : Bool :=
  !isOpening character && !isClosing character && character != '"' && character != '#'

theorem isOpening_iff {character : Char} :
    isOpening character ↔ character = '{' ∨ character = '(' ∨ character = '[' := by
  simp [isOpening, or_assoc]

theorem isClosing_iff {character : Char} :
    isClosing character ↔ character = '}' ∨ character = ')' ∨ character = ']' := by
  simp [isClosing, or_assoc]

theorem isPlain_iff {character : Char} :
    isPlain character ↔ isOpening character = false ∧ isClosing character = false ∧
      character ≠ '"' ∧ character ≠ '#' := by
  simp [isPlain, and_assoc]

theorem not_isClosing_of_isOpening {character : Char} (opens : isOpening character) :
    isClosing character = false := by
  rcases isOpening_iff.mp opens with rfl | rfl | rfl <;> rfl

theorem isPlain_of_isNamePart {character : Char} (part : isNamePart character) :
    isPlain character := by
  refine Decidable.byContradiction fun special => ?_
  simp only [isPlain, isOpening, isClosing] at special
  have cases : character = '{' ∨ character = '(' ∨ character = '[' ∨ character = '}' ∨
      character = ')' ∨ character = ']' ∨ character = '"' ∨ character = '#' := by
    grind
  rcases cases with rfl | rfl | rfl | rfl | rfl | rfl | rfl | rfl <;> cases part

theorem isNamePart_of_isNameStart {character : Char} (starts : isNameStart character) :
    isNamePart character := by
  rw [isNamePart, starts, Bool.true_or]

theorem isNamePart_of_mem_name {head : Char} {run : List Char} (starts : isNameStart head)
    (parts : ∀ character ∈ run, isNamePart character) :
    ∀ character ∈ head :: run, isNamePart character := by
  intro character member
  rcases List.mem_cons.mp member with rfl | member
  · exact isNamePart_of_isNameStart starts
  · exact parts character member

theorem isSolid_of_isNamePart {character : Char} (part : isNamePart character) :
    isSolid character := by
  have plain := isPlain_iff.mp (isPlain_of_isNamePart part)
  rw [isSolid_iff]
  refine ⟨Bool.eq_false_iff.mpr fun blank => ?_, plain.2.2.2⟩
  simp only [isBlank, isLineEnd, Bool.or_eq_true, beq_iff_eq] at blank
  rcases blank with (((rfl | rfl) | rfl) | rfl) | rfl | rfl <;> cases part

/-- Whole units lead from one text to another, and change the number of open brackets. -/
inductive Walk : Nat → List Char → Nat → List Char → Prop
  | refl {depth text} : Walk depth text depth text
  | plain {depth character text final rest} (plain : isPlain character)
      (more : Walk depth text final rest) : Walk depth (character :: text) final rest
  | opening {depth character text final rest} (opens : isOpening character)
      (more : Walk (depth + 1) text final rest) : Walk depth (character :: text) final rest
  | closing {depth character text final rest} (closes : isClosing character)
      (more : Walk depth text final rest) : Walk (depth + 1) (character :: text) final rest
  | comment {depth body text final rest} (inside : ∀ character ∈ body, isLineEnd character = false)
      (ended : ∀ character ∈ text.head?, isLineEnd character)
      (more : Walk depth text final rest) : Walk depth ('#' :: body ++ text) final rest
  | string {depth text middle final rest}
      (reads : (rule .string).Reads grammar .joined text (some middle))
      (more : Walk depth middle final rest) : Walk depth text final rest

namespace Walk

variable {depth middle final : Nat} {text between rest : List Char}

theorem trans (first : Walk depth text middle between) (second : Walk middle between final rest) :
    Walk depth text final rest := by
  induction first with
  | refl => exact second
  | plain plain _ ih => exact .plain plain (ih second)
  | opening opens _ ih => exact .opening opens (ih second)
  | closing closes _ ih => exact .closing closes (ih second)
  | comment inside ended _ ih => exact .comment inside ended (ih second)
  | string reads _ ih => exact .string reads (ih second)

theorem suffix (walk : Walk depth text final rest) : rest <:+ text := by
  induction walk with
  | refl => exact List.suffix_refl _
  | plain _ _ ih | opening _ _ ih | closing _ _ ih => exact ih.trans (List.suffix_cons _ _)
  | comment _ _ _ ih => exact ih.trans (List.suffix_append _ _)
  | string reads _ ih => exact ih.trans (orderly.suffix_of_reads reads)

/-- A walk that goes nowhere changes nothing. -/
theorem depth_eq_of_length_le (walk : Walk depth text final rest) (still : text.length ≤ rest.length) :
    depth = final := by
  cases walk with
  | refl => rfl
  | plain _ more | opening _ more | closing _ more =>
      have shorter := more.suffix.length_le
      rw [List.length_cons] at still
      omega
  | comment _ _ more =>
      have shorter := more.suffix.length_le
      simp only [List.length_append, List.length_cons] at still
      omega
  | string reads more =>
      have shorter := more.suffix.length_le
      have empty := orderly.nullable_of_reads reads (by omega)
      cases empty

end Walk

theorem isPlain_of_isBlank {character : Char} (blank : isBlank character) : isPlain character := by
  simp only [isBlank, isLineEnd, Bool.or_eq_true, beq_iff_eq] at blank
  rcases blank with (((rfl | rfl) | rfl) | rfl) | rfl | rfl <;> rfl

theorem Ignored.walk {ignored : List Char} (blank : Ignored ignored) (depth : Nat)
    (text : List Char) : Walk depth (ignored ++ text) depth text := by
  induction blank with
  | nil => exact .refl
  | blank blank _ ih => exact .plain (isPlain_of_isBlank blank) ih
  | comment inside ends _ ih =>
      rw [List.append_assoc]
      refine .comment inside ?_ (.plain (isPlain_of_isBlank (isBlank_of_isLineEnd ends)) ih)
      rintro character ⟨⟩
      exact ends

theorem walk_afterBlanks (depth : Nat) (text : List Char) :
    Walk depth text depth (grammar.afterBlanks text) := by
  rcases afterBlanks_cases text with ⟨ignored, first, rest, rfl, blank, _, after⟩ |
    ⟨after, ignored, rest, rfl, blank, rfl | ⟨body, inside, rfl⟩⟩
  · rw [after]
    exact blank.walk depth _
  · rw [after]
    exact blank.walk depth []
  · rw [after]
    refine (blank.walk depth _).trans ?_
    rw [← List.append_nil body]
    exact .comment inside (by simp) .refl

theorem walk_gap (spacing : Spacing) (depth : Nat) (text : List Char) :
    Walk depth text depth (grammar.gap spacing text) := by
  rw [Grammar.gap]
  split
  · exact walk_afterBlanks depth text
  · exact .refl

/-! ## The effect of an expression -/

/-- The rules that make up definitions. -/
def isInner : Rule → Bool
  | .executableDocument | .typeSystemDocument | .endOfInput => false
  | _ => true

/-- How many brackets a fixed text closes and opens. -/
def wordEffect : List Char → Option (Nat × Nat)
  | [character] =>
    if isOpening character then some (0, 1)
    else if isClosing character then some (1, 0)
    else if isPlain character then some (0, 0)
    else none
  | characters => if characters.all isPlain then some (0, 0) else none

/--
How many brackets an expression closes that were open before, and how many it leaves open;
`none` if that cannot be seen.
-/
def effect : Peg Rule → Option (Nat × Nat)
  | .empty => some (0, 0)
  | .char accepts => if "{([])}\"#".toList.any accepts then none else some (0, 0)
  | .word fixed => wordEffect fixed.toList
  | .rule called => if isInner called then some (0, 0) else none
  | .seq first second =>
    match effect first, effect second with
    | some (closed, opened), some (closes, opens) =>
      some (closed + (closes - opened), opens + (opened - closes))
    | _, _ => none
  | .choice first second =>
    match effect first, effect second with
    | some one, some other => if one = other then some one else none
    | _, _ => none
  | .maybe body | .many body | .absent body => if effect body = some (0, 0) then some (0, 0) else none

section Effect

variable {first second body : Peg Rule} {closed opened : Nat}

/--
The effects of the parts of a sequence. Around the first part stand the brackets that the second
one closes, and around the second those that the first one leaves open.
-/
theorem effect_seq_eq_some (effective : effect (.seq first second) = some (closed, opened))
    (around : Nat) :
    ∃ firstClosed firstOpened secondClosed secondOpened,
      effect first = some (firstClosed, firstOpened) ∧
      effect second = some (secondClosed, secondOpened) ∧
      around + closed = around + (secondClosed - firstOpened) + firstClosed ∧
      around + (secondClosed - firstOpened) + firstOpened =
        around + (firstOpened - secondClosed) + secondClosed ∧
      around + opened = around + (firstOpened - secondClosed) + secondOpened := by
  simp only [effect] at effective
  split at effective
  · next firstClosed firstOpened secondClosed secondOpened firstEffect secondEffect =>
      cases effective
      exact ⟨_, _, _, _, firstEffect, secondEffect, by omega, by omega, by omega⟩
  · cases effective

theorem effect_choice_eq_some (effective : effect (.choice first second) = some (closed, opened)) :
    effect first = some (closed, opened) ∧ effect second = some (closed, opened) := by
  simp only [effect] at effective
  split at effective
  · next one other firstEffect secondEffect =>
      split at effective
      · next same =>
          cases effective
          cases same
          exact ⟨firstEffect, secondEffect⟩
      · cases effective
  · cases effective

theorem effect_body_eq_some
    (effective : (if effect body = some (0, 0) then some (0, 0) else none) = some (closed, opened)) :
    effect body = some (0, 0) ∧ closed = 0 ∧ opened = 0 := by
  split at effective
  · next balanced =>
      cases effective
      exact ⟨balanced, rfl, rfl⟩
  · cases effective

theorem effect_char_eq_some {accepts : Char → Bool}
    (effective : effect (.char accepts) = some (closed, opened)) : closed = 0 ∧ opened = 0 := by
  simp only [effect] at effective
  split at effective
  · cases effective
  · cases effective
    exact ⟨rfl, rfl⟩

theorem effect_rule_eq_some {called : Rule}
    (effective : effect (.rule called) = some (closed, opened)) :
    isInner called ∧ closed = 0 ∧ opened = 0 := by
  simp only [effect] at effective
  split at effective
  · next inner =>
      cases effective
      exact ⟨inner, rfl, rfl⟩
  · cases effective

end Effect

/-- Every rule of a definition leaves as many brackets open as it finds. -/
theorem effect_body {called : Rule} (inner : isInner called) (other : called ≠ .string) :
    effect (grammar.body called) = some (0, 0) := by
  cases called <;> try cases ‹Constancy›
  all_goals first | decide +kernel | exact absurd rfl other | cases inner

theorem walk_plain {characters text : List Char} {depth : Nat}
    (plain : ∀ character ∈ characters, isPlain character) :
    Walk depth (characters ++ text) depth text := by
  induction characters with
  | nil => exact .refl
  | cons character characters ih =>
      refine .plain (plain character List.mem_cons_self) (ih ?_)
      exact fun other member => plain other (List.mem_cons_of_mem _ member)

theorem walk_word {characters text : List Char} {closed opened : Nat}
    (effective : wordEffect characters = some (closed, opened)) (around : Nat) :
    Walk (around + closed) (characters ++ text) (around + opened) text := by
  unfold wordEffect at effective
  split at effective
  · split at effective
    · next opens =>
        cases effective
        exact .opening opens .refl
    · split at effective
      · next closes =>
          cases effective
          exact .closing closes .refl
      · split at effective
        · next plain =>
            cases effective
            exact .plain plain .refl
        · cases effective
  · split at effective
    · next plain =>
        cases effective
        exact walk_plain (List.all_eq_true.mp plain)
    · cases effective

theorem isPlain_of_effect {accepts : Char → Bool} {change : Nat × Nat} {character : Char}
    (effective : effect (.char accepts) = some change) (accepted : accepts character) :
    isPlain character := by
  simp only [effect] at effective
  split at effective
  · cases effective
  · next harmless =>
      refine Decidable.byContradiction fun special => harmless ?_
      rw [List.any_eq_true]
      refine ⟨character, ?_, accepted⟩
      simp only [String.reduceToList, List.mem_cons, List.not_mem_nil, or_false]
      grind [isPlain, isOpening, isClosing]

/-- What an expression reads is a walk with the effect of the expression. -/
theorem walk_of_reads {spacing : Spacing} {expression : Peg Rule} {text rest : List Char}
    {closed opened : Nat} (reads : expression.Reads grammar spacing text (some rest))
    (effective : effect expression = some (closed, opened)) (around : Nat) :
    Walk (around + closed) text (around + opened) rest := by
  generalize found : some rest = answer at reads
  induction reads generalizing rest closed opened around with
  | empty =>
      cases found
      cases effective
      exact .refl
  | char accepted =>
      cases found
      have plain := isPlain_of_effect effective accepted
      rcases effect_char_eq_some effective with ⟨rfl, rfl⟩
      exact .plain plain .refl
  | word =>
      cases found
      exact walk_word effective around
  | @rule spacing called text answer body ih =>
      rcases effect_rule_eq_some effective with ⟨inner, rfl, rfl⟩
      by_cases string : called = .string
      · subst string found
        exact .string (.rule body) .refl
      · exact ih (effect_body inner string) around found
  | @seq spacing first second text middle answer _ _ before after =>
      rcases effect_seq_eq_some effective around with
        ⟨_, opened, closes, _, firstEffect, secondEffect, start, level, stop⟩
      have one := before firstEffect (around + (closes - opened)) rfl
      rw [level] at one
      rw [start, stop]
      exact one.trans ((walk_gap spacing _ _).trans (after secondEffect _ found))
  | choice_first _ ih => exact ih (effect_choice_eq_some effective).1 around found
  | choice_second _ _ _ ih => exact ih (effect_choice_eq_some effective).2 around found
  | maybe _ ih | many_last _ _ ih =>
      rcases effect_body_eq_some effective with ⟨balanced, rfl, rfl⟩
      exact ih balanced around found
  | maybe_none | many_none | absent =>
      cases found
      rcases effect_body_eq_some effective with ⟨_, rfl, rfl⟩
      exact .refl
  | many_more _ _ _ one _ others =>
      rcases effect_body_eq_some effective with ⟨balanced, rfl, rfl⟩
      exact (one balanced around rfl).trans ((walk_gap _ _ _).trans (others effective around found))
  | char_refused | word_refused | seq_refused | absent_refused => cases found

end PreviewLint.GraphQL
