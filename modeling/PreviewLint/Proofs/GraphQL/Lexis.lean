import PreviewLint.GraphQL.Grammar
import PreviewLint.Proofs.Peg.Reading

/-!
# Blanks, names and strings of the GraphQL grammar

The grammar keeps its promises, so that matches are readings. This file says what the
smallest parts of the grammar read: blanks with comments, names, and the two forms of
strings. A string is read in the same way whatever follows it, with one exception: two
quotes are an empty string only if the quote that may come next does not begin a block.
-/

namespace PreviewLint.GraphQL

open Peg

/-- Of two ways to cut a text, the one with the shorter end goes on from the other. -/
theorem exists_middle {before after first last : List Char} (same : before ++ after = first ++ last)
    (shorter : last.length ≤ after.length) :
    ∃ middle, first = before ++ middle ∧ after = middle ++ last := by
  rcases List.append_eq_append_iff.mp same with ⟨middle, rfl, rfl⟩ | ⟨middle, rfl, rfl⟩
  · exact ⟨middle, rfl, rfl⟩
  · rw [List.length_append] at shorter
    have none : middle = [] := List.length_eq_zero_iff.mp (by omega)
    subst none
    exact ⟨[], by simp, rfl⟩

/-! ## Blanks and comments -/

theorem skipIgnored_rest (inComment : Bool) (offset other : Nat) (text : List Char) :
    (skipIgnored inComment offset text).rest = (skipIgnored inComment other text).rest := by
  induction text generalizing inComment offset other with
  | nil => rfl
  | cons character rest ih =>
      simp only [skipIgnored]
      split
      · exact ih _ _ _
      · split
        · exact ih _ _ _
        · split
          · exact ih _ _ _
          · rfl

theorem skipIgnored_offset (inComment : Bool) (offset : Nat) (text : List Char) :
    (skipIgnored inComment offset text).offset + (skipIgnored inComment offset text).rest.length =
      offset + text.length := by
  induction text generalizing inComment offset with
  | nil => rfl
  | cons character rest ih =>
      simp only [skipIgnored, List.length_cons]
      split
      · rw [ih]; omega
      · split
        · rw [ih]; omega
        · split
          · rw [ih]; omega
          · rfl

theorem skipIgnored_forward (inComment : Bool) (offset : Nat) (text : List Char) :
    offset ≤ (skipIgnored inComment offset text).offset := by
  induction text generalizing inComment offset with
  | nil => exact Nat.le_refl _
  | cons character rest ih =>
      have further := fun inComment => Nat.le_trans (Nat.le_succ offset) (ih inComment (offset + 1))
      simp only [skipIgnored]
      split
      · exact further _
      · split
        · exact further _
        · split
          · exact further _
          · exact Nat.le_refl _

theorem skipIgnored_suffix (inComment : Bool) (offset : Nat) (text : List Char) :
    (skipIgnored inComment offset text).rest <:+ text := by
  induction text generalizing inComment offset with
  | nil => exact List.suffix_refl _
  | cons character rest ih =>
      have further := fun inComment => (ih inComment (offset + 1)).trans (List.suffix_cons character rest)
      simp only [skipIgnored]
      split
      · exact further _
      · split
        · exact further _
        · split
          · exact further _
          · exact List.suffix_refl _

/-- The text after a comment, from a place inside the comment. -/
def afterComment (text : List Char) : List Char := (skipIgnored true 0 text).rest

section Blanks

variable {character : Char} {text : List Char}

@[simp]
theorem afterBlanks_nil : grammar.afterBlanks [] = [] := rfl

theorem afterBlanks_blank (blank : isBlank character) :
    grammar.afterBlanks (character :: text) = grammar.afterBlanks text := by
  change (skipIgnored false 0 (character :: text)).rest = (skipIgnored false 0 text).rest
  simp only [skipIgnored, blank, Bool.false_eq_true, if_false, if_true]
  exact skipIgnored_rest _ _ _ _

@[simp]
theorem afterBlanks_comment : grammar.afterBlanks ('#' :: text) = afterComment text := by
  change (skipIgnored false 0 ('#' :: text)).rest = _
  simp only [skipIgnored, Bool.false_eq_true, if_false]
  exact skipIgnored_rest _ _ _ _

theorem afterBlanks_other (unblank : isBlank character = false) (other : character ≠ '#') :
    grammar.afterBlanks (character :: text) = character :: text := by
  change (skipIgnored false 0 (character :: text)).rest = _
  simp [skipIgnored, unblank, other]

@[simp]
theorem afterComment_nil : afterComment [] = [] := rfl

theorem afterComment_lineEnd (ending : isLineEnd character) :
    afterComment (character :: text) = grammar.afterBlanks text := by
  change (skipIgnored true 0 (character :: text)).rest = (skipIgnored false 0 text).rest
  simp only [skipIgnored, ending, if_true, Bool.not_true]
  exact skipIgnored_rest _ _ _ _

theorem afterComment_other (inside : isLineEnd character = false) :
    afterComment (character :: text) = afterComment text := by
  change (skipIgnored true 0 (character :: text)).rest = (skipIgnored true 0 text).rest
  simp only [skipIgnored, inside, if_true, Bool.not_false]
  exact skipIgnored_rest _ _ _ _

theorem isBlank_of_isLineEnd (ending : isLineEnd character) : isBlank character := by
  rw [isBlank, ending, Bool.or_true]

/-- A character that is neither blank nor the beginning of a comment. -/
def isSolid (character : Char) : Bool := !isBlank character && character != '#'

theorem isSolid_iff : isSolid character ↔ isBlank character = false ∧ character ≠ '#' := by
  simp [isSolid]

theorem afterBlanks_solid (solid : isSolid character) :
    grammar.afterBlanks (character :: text) = character :: text :=
  afterBlanks_other (isSolid_iff.mp solid).1 (isSolid_iff.mp solid).2

end Blanks

/-- Blanks and comments, every comment with the line end that closes it. -/
inductive Ignored : List Char → Prop
  | nil : Ignored []
  | blank {character rest} (blank : isBlank character) (more : Ignored rest) :
      Ignored (character :: rest)
  | comment {body ending rest} (inside : ∀ character ∈ body, isLineEnd character = false)
      (ends : isLineEnd ending) (more : Ignored rest) : Ignored ('#' :: body ++ ending :: rest)

/-- A comment without the line end that closes it. -/
def Unended (text : List Char) : Prop :=
  ∃ body, (∀ character ∈ body, isLineEnd character = false) ∧ text = '#' :: body

theorem afterComment_append {body text : List Char}
    (inside : ∀ character ∈ body, isLineEnd character = false) :
    afterComment (body ++ text) = afterComment text := by
  induction body with
  | nil => rfl
  | cons character body ih =>
      rw [List.cons_append, afterComment_other (inside character List.mem_cons_self)]
      exact ih fun other member => inside other (List.mem_cons_of_mem _ member)

theorem Ignored.afterBlanks_append {ignored text : List Char} (blank : Ignored ignored) :
    grammar.afterBlanks (ignored ++ text) = grammar.afterBlanks text := by
  induction blank with
  | nil => rfl
  | blank blank _ ih => rw [List.cons_append, afterBlanks_blank blank, ih]
  | comment inside ends _ ih =>
      rw [List.cons_append, List.cons_append, afterBlanks_comment, List.append_assoc,
        afterComment_append inside, List.cons_append, afterComment_lineEnd ends, ih]

theorem Ignored.append {first second : List Char} (before : Ignored first) (after : Ignored second) :
    Ignored (first ++ second) := by
  induction before with
  | nil => exact after
  | blank blank _ ih => exact .blank blank ih
  | comment inside ends _ ih =>
      rw [List.append_assoc]
      exact .comment inside ends ih

theorem Ignored.of_blanks {text : List Char} (blank : ∀ character ∈ text, isBlank character) :
    Ignored text := by
  induction text with
  | nil => exact .nil
  | cons character text ih =>
      simp only [List.forall_mem_cons] at blank
      exact .blank blank.1 (ih blank.2)

theorem Unended.afterBlanks_eq {text : List Char} (unended : Unended text) :
    grammar.afterBlanks text = [] := by
  rcases unended with ⟨body, inside, rfl⟩
  have rest : afterComment (body ++ []) = afterComment [] := afterComment_append inside
  rw [List.append_nil] at rest
  rw [afterBlanks_comment, rest, afterComment_nil]

/--
Every text begins with blanks and comments. What follows them is a solid character, or the
text ends there or with a comment that no line end closes.
-/
theorem exists_ignored (text : List Char) :
    ∃ ignored rest, text = ignored ++ rest ∧ Ignored ignored ∧
      (rest = [] ∨ Unended rest ∨ ∃ first more, rest = first :: more ∧ isSolid first) := by
  -- The induction also needs the case of a text that begins inside a comment.
  suffices both : (∃ ignored rest, text = ignored ++ rest ∧ Ignored ignored ∧
        (rest = [] ∨ Unended rest ∨ ∃ first more, rest = first :: more ∧ isSolid first)) ∧
      ((∀ character ∈ text, isLineEnd character = false) ∨
        ∃ body ending after, text = body ++ ending :: after ∧ isLineEnd ending ∧
          (∀ character ∈ body, isLineEnd character = false) ∧
          ∃ ignored rest, after = ignored ++ rest ∧ Ignored ignored ∧
            (rest = [] ∨ Unended rest ∨ ∃ first more, rest = first :: more ∧ isSolid first)) from
    both.1
  induction text with
  | nil => exact ⟨⟨[], [], rfl, .nil, Or.inl rfl⟩, Or.inl (by simp)⟩
  | cons character text ih =>
      rcases ih with ⟨⟨ignored, rest, split, blank, after⟩, comment⟩
      constructor
      · by_cases blankHere : isBlank character
        · exact ⟨character :: ignored, rest, by rw [split]; rfl, .blank blankHere blank, after⟩
        · by_cases mark : character = '#'
          · subst mark
            rcases comment with inside | ⟨body, ending, later, shape, ends, inside, ignored, rest,
              laterSplit, laterBlank, laterAfter⟩
            · exact ⟨[], '#' :: text, rfl, .nil, Or.inr (Or.inl ⟨text, inside, rfl⟩)⟩
            · refine ⟨'#' :: body ++ ending :: ignored, rest, ?_, .comment inside ends laterBlank,
                laterAfter⟩
              rw [shape, laterSplit]
              simp
          · exact ⟨[], character :: text, rfl, .nil, Or.inr (Or.inr ⟨character, text, rfl,
              isSolid_iff.mpr ⟨Bool.eq_false_iff.mpr blankHere, mark⟩⟩)⟩
      · by_cases ends : isLineEnd character
        · exact Or.inr ⟨[], character, text, rfl, ends, by simp, ignored, rest, split, blank, after⟩
        · rcases comment with inside | ⟨body, ending, later, shape, closes, inside, more⟩
          · refine Or.inl fun other member => ?_
            rcases List.mem_cons.mp member with rfl | member
            · exact Bool.eq_false_iff.mpr ends
            · exact inside other member
          · refine Or.inr ⟨character :: body, ending, later, by rw [shape]; rfl, closes, ?_, more⟩
            intro other member
            rcases List.mem_cons.mp member with rfl | member
            · exact Bool.eq_false_iff.mpr ends
            · exact inside other member

/-- Skipping blanks stops at the end of the text, or at a solid character after blanks. -/
theorem afterBlanks_cases (text : List Char) :
    (∃ ignored first rest, text = ignored ++ first :: rest ∧ Ignored ignored ∧ isSolid first ∧
      grammar.afterBlanks text = first :: rest) ∨
    (grammar.afterBlanks text = [] ∧ ∃ ignored rest, text = ignored ++ rest ∧ Ignored ignored ∧
      (rest = [] ∨ Unended rest)) := by
  rcases exists_ignored text with ⟨ignored, rest, rfl, blank, rfl | unended | ⟨first, more, rfl, solid⟩⟩
  · exact Or.inr ⟨blank.afterBlanks_append, ignored, [], rfl, blank, Or.inl rfl⟩
  · exact Or.inr ⟨blank.afterBlanks_append.trans unended.afterBlanks_eq, ignored, rest, rfl, blank,
      Or.inr unended⟩
  · exact Or.inl ⟨ignored, first, more, rfl, blank, solid,
      blank.afterBlanks_append.trans (afterBlanks_solid solid)⟩

theorem afterBlanks_afterBlanks (text : List Char) :
    grammar.afterBlanks (grammar.afterBlanks text) = grammar.afterBlanks text := by
  rcases afterBlanks_cases text with ⟨_, first, rest, _, _, solid, after⟩ | ⟨after, _⟩
  · rw [after, afterBlanks_solid solid]
  · rw [after, afterBlanks_nil]

/-- A text without blanks at its beginning begins with a solid character. -/
theorem isSolid_of_afterBlanks_eq {character : Char} {text : List Char}
    (same : grammar.afterBlanks (character :: text) = character :: text) : isSolid character := by
  rcases afterBlanks_cases (character :: text) with
    ⟨ignored, first, rest, split, _, solid, after⟩ | ⟨after, _⟩
  · rw [same] at after
    cases after
    exact solid
  · rw [same] at after
    cases after

/-! ## The grammar keeps its promises -/

/-- The rules that may match without reading anything. -/
def mayBeEmpty : Rule → Bool
  | .repeatable | .endOfInput => true
  | _ => false

theorem orderly : grammar.Orderly mayBeEmpty where
  skip_rest cursor := skipIgnored_rest false cursor.offset 0 cursor.rest
  skip_offset cursor := skipIgnored_offset false cursor.offset cursor.rest
  skip_forward cursor := skipIgnored_forward false cursor.offset cursor.rest
  afterBlanks_suffix text := skipIgnored_suffix false 0 text
  rank_lt called := by
    cases called <;> try cases ‹Constancy›
    all_goals decide
  nullable_body called := by
    cases called <;> try cases ‹Constancy›
    all_goals decide
  progresses_body called := by
    cases called <;> try cases ‹Constancy›
    all_goals decide
  enters_body called := by
    cases called <;> try cases ‹Constancy›
    all_goals decide

/-! ## Names -/

theorem reads_many_char_iff {spacing : Spacing} {accepts : Char → Bool} {text rest : List Char}
    (joined : spacing ≠ .spaced) :
    (char accepts).many.Reads grammar spacing text (some rest) ↔
      ∃ run, text = run ++ rest ∧ (∀ character ∈ run, accepts character) ∧
        rest.head?.any accepts = false := by
  constructor
  · intro reads
    refine Reads.many_induction
      (motive := fun text => ∃ run, text = run ++ rest ∧ (∀ character ∈ run, accepts character) ∧
        rest.head?.any accepts = false) reads ?_ ?_ ?_
    · intro missing
      exact ⟨[], rfl, by simp, reads_char_none_iff.mp missing⟩
    · intro text present missing
      rcases reads_char_iff.mp present with ⟨character, rfl, accepted⟩
      rw [gap_of_ne_spaced joined] at missing
      exact ⟨[character], rfl, by simpa using accepted, reads_char_none_iff.mp missing⟩
    · rintro text middle present ⟨run, same, all, stops⟩
      rcases reads_char_iff.mp present with ⟨character, rfl, accepted⟩
      rw [gap_of_ne_spaced joined] at same
      refine ⟨character :: run, by rw [same]; rfl, ?_, stops⟩
      intro other member
      rcases List.mem_cons.mp member with rfl | member
      · exact accepted
      · exact all other member
  · rintro ⟨run, rfl, all, stops⟩
    induction run with
    | nil => exact .many_none (.char_refused stops)
    | cons character run ih =>
        refine .many_cons joined (.char (all character List.mem_cons_self)) (ih ?_)
        exact fun other member => all other (List.mem_cons_of_mem _ member)

/-- A name goes on as long as it can. -/
theorem reads_name_iff {spacing : Spacing} {text rest : List Char} :
    (rule .name).Reads grammar spacing text (some rest) ↔
      ∃ head run, text = head :: (run ++ rest) ∧ isNameStart head ∧
        (∀ character ∈ run, isNamePart character) ∧ rest.head?.any isNamePart = false := by
  have inside : spacing.inside (grammar.spacing .name) = .token := rfl
  have body : grammar.body .name = char isNameStart ++ (char isNamePart).many := rfl
  have gap : ∀ text, grammar.gap .token text = text := fun _ => rfl
  rw [reads_rule_iff, inside, body, reads_seq_iff]
  simp only [reads_char_iff, gap, reads_many_char_iff (by decide : Spacing.token ≠ .spaced)]
  constructor
  · rintro ⟨_, ⟨head, rfl, starts⟩, run, rfl, all, stops⟩
    exact ⟨head, run, rfl, starts, all, stops⟩
  · rintro ⟨head, run, rfl, starts, all, stops⟩
    exact ⟨_, ⟨head, rfl, starts⟩, run, rfl, all, stops⟩

theorem reads_name_none_iff {spacing : Spacing} {text : List Char} :
    (rule .name).Reads grammar spacing text none ↔ text.head?.any isNameStart = false := by
  have inside : spacing.inside (grammar.spacing .name) = .token := rfl
  have body : grammar.body .name = char isNameStart ++ (char isNamePart).many := rfl
  rw [reads_rule_iff, inside, body]
  constructor
  · intro reads
    rcases reads_seq_none_iff.mp reads with refused | ⟨_, _, refused⟩
    · exact reads_char_none_iff.mp refused
    · cases refused
  · intro refused
    exact .seq_refused (.char_refused refused)

/-! ## Strings -/

/-- The text after the quotes that end a block string, from a place inside the string. -/
def blockRest : List Char → Option (List Char)
  | '\\' :: '"' :: '"' :: '"' :: rest => blockRest rest
  | '"' :: '"' :: '"' :: rest => some rest
  | _ :: rest => blockRest rest
  | [] => none

section Block

variable {text rest : List Char}

theorem reads_blockCharacter_escaped :
    blockCharacter.Reads grammar .joined ('\\' :: '"' :: '"' :: '"' :: rest) (some rest) := by
  refine .choice_second (.seq_refused (.absent_refused (.choice_second ?_ .word))) .word
  exact .word_refused (by simp)

theorem reads_blockCharacter_quotes :
    blockCharacter.Reads grammar .joined ('"' :: '"' :: '"' :: rest) none := by
  refine .choice_second (.seq_refused (.absent_refused (.choice_first .word))) ?_
  exact .word_refused (by simp)

theorem reads_blockCharacter_other {character : Char}
    (escape : ∀ more, character :: text ≠ '\\' :: '"' :: '"' :: '"' :: more)
    (quotes : ∀ more, character :: text ≠ '"' :: '"' :: '"' :: more) :
    blockCharacter.Reads grammar .joined (character :: text) (some text) := by
  refine .choice_first (.seq (.absent (.choice_second ?_ ?_)) (.char rfl))
  · exact .word_refused fun ⟨more, same⟩ => quotes more same.symm
  · exact .word_refused fun ⟨more, same⟩ => escape more same.symm

theorem reads_blockCharacter_nil : blockCharacter.Reads grammar .joined [] none := by
  refine .choice_second (.seq (.absent (.choice_second ?_ ?_)) (.char_refused rfl)) ?_
  all_goals exact .word_refused (by simp)

/-- The characters of a block string end at the quotes that close it, or with the text. -/
theorem reads_many_blockCharacter (text : List Char) :
    blockCharacter.many.Reads grammar .joined text
      (some (match blockRest text with
        | some rest => '"' :: '"' :: '"' :: rest
        | none => [])) := by
  have joined : Spacing.joined ≠ .spaced := by decide
  fun_induction blockRest text with
  | case1 rest ih => exact .many_cons joined reads_blockCharacter_escaped ih
  | case2 rest => exact .many_none reads_blockCharacter_quotes
  | case3 character rest escape quotes ih =>
      refine .many_cons joined (reads_blockCharacter_other ?_ ?_) ih
      · exact fun more same => escape more (List.cons.inj same).1 (List.cons.inj same).2
      · exact fun more same => quotes more (List.cons.inj same).1 (List.cons.inj same).2
  | case4 => exact .many_none reads_blockCharacter_nil

end Block

/-- Two digits with which the code of a surrogate begins. -/
def isSurrogate (first second : Char) : Bool :=
  (first == 'd' || first == 'D') &&
    ("89abAB".toList.contains second || "cdefCDEF".toList.contains second)

/-- What stands for one character in a quoted string. -/
inductive QuotedUnit : List Char → Prop
  | plain {character} (allowed : (character != '"' && character != '\\' && !isLineEnd character)) :
      QuotedUnit [character]
  | escape {character} (allowed : "\"\\/bfnrt".toList.contains character) :
      QuotedUnit ['\\', character]
  | code {first second third fourth} (scalar : isSurrogate first second = false)
      (digits : ∀ digit ∈ [first, second, third, fourth], Escape.isHexDigit digit) :
      QuotedUnit ['\\', 'u', first, second, third, fourth]

/-- The text after the quote that ends a quoted string, from a place inside the string. -/
inductive Quoted : List Char → List Char → Prop
  | close {rest} : Quoted ('"' :: rest) rest
  | unit {unit text rest} (one : QuotedUnit unit) (more : Quoted text rest) :
      Quoted (unit ++ text) rest

section Quoted

variable {text rest : List Char}

theorem gap_joined : grammar.gap .joined text = text := rfl

theorem reads_scalarDigits_iff :
    scalarDigits.Reads grammar .joined text (some rest) ↔
      ∃ first second third fourth, text = first :: second :: third :: fourth :: rest ∧
        isSurrogate first second = false ∧
        ∀ digit ∈ [first, second, third, fourth], Escape.isHexDigit digit := by
  have surrogate : ∀ {first second : Char} {more : List Char},
      (surrogateMark ++ (highMark ||| lowMark) : Peg Rule).Reads grammar .joined
        (first :: second :: more) none ↔ isSurrogate first second = false := by
    intro first second more
    rw [reads_seq_none_iff, surrogateMark, reads_char_none_iff, isSurrogate]
    simp only [reads_char_iff, highMark, lowMark, reads_choice_none_iff, gap_joined,
      reads_char_none_iff, List.head?_cons, Option.any_some, List.cons.injEq]
    constructor
    · rintro (refused | ⟨_, ⟨_, ⟨rfl, rfl⟩, _⟩, high, low⟩)
      · rw [refused, Bool.false_and]
      · simp only [List.head?_cons, Option.any_some] at high low
        rw [high, low, Bool.or_self, Bool.and_false]
    · intro scalar
      rcases Bool.and_eq_false_iff.mp scalar with refused | refused
      · exact Or.inl refused
      · cases mark : (first == 'd' || first == 'D') with
        | false => exact Or.inl rfl
        | true => exact Or.inr ⟨_, ⟨first, ⟨rfl, rfl⟩, mark⟩, Bool.or_eq_false_iff.mp refused⟩
  simp only [scalarDigits, hexDigit, reads_seq_iff, reads_absent_iff, reads_char_iff, gap_joined]
  constructor
  · rintro ⟨_, ⟨_, ⟨_, ⟨_, ⟨scalar, rfl⟩, first, rfl, firstHex⟩, second, rfl, secondHex⟩, third, rfl,
      thirdHex⟩, fourth, rfl, fourthHex⟩
    refine ⟨first, second, third, fourth, rfl, surrogate.mp scalar, ?_⟩
    simp [firstHex, secondHex, thirdHex, fourthHex]
  · rintro ⟨first, second, third, fourth, rfl, scalar, digits⟩
    exact ⟨_, ⟨_, ⟨_, ⟨_, ⟨surrogate.mpr scalar, rfl⟩, first, rfl, digits first (by simp)⟩, second,
      rfl, digits second (by simp)⟩, third, rfl, digits third (by simp)⟩, fourth, rfl,
      digits fourth (by simp)⟩

theorem reads_quotedCharacter_iff :
    quotedCharacter.Reads grammar .joined text (some rest) ↔
      ∃ unit, QuotedUnit unit ∧ text = unit ++ rest := by
  simp only [quotedCharacter, reads_choice_iff, reads_choice_none_iff, reads_seq_iff,
    reads_seq_none_iff, reads_char_iff, reads_char_none_iff, reads_word_iff, reads_word_none_iff,
    reads_scalarDigits_iff, gap_joined]
  constructor
  · rintro ((⟨character, rfl, allowed⟩ | ⟨_, _, rfl, character, rfl, allowed⟩) |
      ⟨_, _, rfl, first, second, third, fourth, rfl, scalar, digits⟩)
    · exact ⟨_, .plain allowed, rfl⟩
    · exact ⟨_, .escape allowed, rfl⟩
    · exact ⟨_, .code scalar digits, rfl⟩
  · rintro ⟨_, (@⟨character, allowed⟩ | @⟨character, allowed⟩ | @⟨first, second, third, fourth, scalar,
      digits⟩), rfl⟩
    · exact Or.inl (Or.inl ⟨character, rfl, allowed⟩)
    · exact Or.inl (Or.inr ⟨by simp, _, rfl, character, rfl, allowed⟩)
    · exact Or.inr ⟨⟨by simp, Or.inr ⟨_, rfl, by simp⟩⟩, _, rfl, first, second, third, fourth, rfl,
        scalar, digits⟩

theorem reads_quotedCharacter_quote :
    quotedCharacter.Reads grammar .joined ('"' :: rest) none := by
  simp [quotedCharacter, reads_choice_none_iff, reads_seq_none_iff, reads_char_none_iff,
    reads_word_none_iff]

theorem reads_quoted_iff :
    (quotedCharacter.many ++ word "\"").Reads grammar .joined text (some rest) ↔
      Quoted text rest := by
  rw [reads_seq_iff]
  constructor
  · rintro ⟨middle, rounds, ends⟩
    have closing := reads_word_iff.mp ends
    rw [gap_joined] at closing
    refine Reads.many_induction (motive := (Quoted · rest)) rounds ?_ ?_ ?_
    · intro _
      rw [closing]
      exact .close
    · intro text present _
      rcases reads_quotedCharacter_iff.mp present with ⟨unit, one, rfl⟩
      rw [closing]
      exact .unit one .close
    · intro text middle present more
      rcases reads_quotedCharacter_iff.mp present with ⟨unit, one, rfl⟩
      exact .unit one more
  · intro quoted
    refine ⟨'"' :: rest, ?_, reads_word_iff.mpr rfl⟩
    induction quoted with
    | close => exact .many_none reads_quotedCharacter_quote
    | unit one _ ih =>
        exact .many_cons (by decide) (reads_quotedCharacter_iff.mpr ⟨_, one, rfl⟩) ih

theorem reads_block_iff :
    (blockQuote ++ blockCharacter.many ++ blockQuote).Reads grammar .joined text (some rest) ↔
      ∃ content, text = '"' :: '"' :: '"' :: content ∧ blockRest content = some rest := by
  simp only [reads_seq_iff, blockQuote, reads_word_iff, gap_joined]
  constructor
  · rintro ⟨middle, ⟨content, rfl, rounds⟩, rfl⟩
    refine ⟨content, rfl, ?_⟩
    have stop := Option.some.inj (rounds.unique (reads_many_blockCharacter content))
    cases closing : blockRest content with
    | none => simp [closing] at stop
    | some after => simpa [closing] using stop.symm
  · rintro ⟨content, rfl, closing⟩
    have rounds := reads_many_blockCharacter content
    rw [closing] at rounds
    exact ⟨_, ⟨content, rfl, rounds⟩, rfl⟩

theorem reads_block_none_iff :
    (blockQuote ++ blockCharacter.many ++ blockQuote).Reads grammar .joined text none ↔
      ∀ content, text = '"' :: '"' :: '"' :: content → blockRest content = none := by
  constructor
  · rintro refused content rfl
    cases closing : blockRest content with
    | none => rfl
    | some after => cases refused.unique (reads_block_iff.mpr ⟨content, rfl, closing⟩)
  · intro unclosed
    simp only [reads_seq_none_iff, reads_seq_iff, blockQuote, reads_word_none_iff, reads_word_iff,
      gap_joined]
    by_cases opened : "\"\"\"".toList <+: text
    · rcases opened with ⟨content, rfl⟩
      have rounds := reads_many_blockCharacter content
      rw [unclosed content rfl] at rounds
      exact Or.inr ⟨[], ⟨content, rfl, rounds⟩, by simp⟩
    · exact Or.inl (Or.inl opened)

/-- A string is a block, or a quoted string whose two first quotes do not begin a block. -/
theorem reads_string_iff {spacing : Spacing} :
    (rule .string).Reads grammar spacing text (some rest) ↔
      (∃ content, text = '"' :: '"' :: '"' :: content ∧ blockRest content = some rest) ∨
      ((∀ content, text = '"' :: '"' :: '"' :: content → blockRest content = none) ∧
        ∃ content, text = '"' :: content ∧ Quoted content rest) := by
  have inside : spacing.inside (grammar.spacing .string) = .joined := rfl
  have quoted : (word "\"" ++ quotedCharacter.many ++ word "\"").Reads grammar .joined text
      (some rest) ↔ ∃ content, text = '"' :: content ∧ Quoted content rest := by
    rw [reads_assoc_iff, reads_seq_iff]
    simp only [reads_word_iff, gap_joined, reads_quoted_iff]
    rfl
  rw [reads_rule_iff, inside, ← reads_block_iff, ← reads_block_none_iff, ← quoted]
  exact reads_choice_iff

end Quoted

end PreviewLint.GraphQL
