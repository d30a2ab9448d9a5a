import PreviewLint.Proofs.GraphQL.Beginnings
import PreviewLint.Proofs.GraphQL.Brackets
import PreviewLint.Proofs.GraphQL.Strings

/-!
# Seams

Two texts may begin alike and differ from some place on, their seam. If what they have in
common is cut into the same units in both of them, the smallest parts of the grammar cannot
tell one text from the other before the seam: blanks, characters, fixed texts, names and
strings are read from both alike, and what is left is again a pair of texts with that seam.

A `Border` says what may stand on both sides of a seam. It is what can be known of a seam
before any text is given.
-/

namespace PreviewLint.GraphQL

open Peg

/--
A text whose units are units both before `first` and before `second`. At its beginning
`depth` brackets are open, at its end none.
-/
inductive Common (first second : List Char) : Nat → List Char → Prop
  | nil : Common first second 0 []
  | plain {depth character text} (plain : isPlain character)
      (more : Common first second depth text) : Common first second depth (character :: text)
  | opening {depth character text} (opens : isOpening character)
      (more : Common first second (depth + 1) text) : Common first second depth (character :: text)
  | closing {depth character text} (closes : isClosing character)
      (more : Common first second depth text) : Common first second (depth + 1) (character :: text)
  | comment {depth body ending text} (inside : ∀ character ∈ body, isLineEnd character = false)
      (ends : isLineEnd ending) (more : Common first second depth (ending :: text)) :
      Common first second depth ('#' :: (body ++ ending :: text))
  | string {depth unit text}
      (reads : (rule .string).Reads grammar .joined ('"' :: (unit ++ (text ++ first)))
        (some (text ++ first)))
      (reads' : (rule .string).Reads grammar .joined ('"' :: (unit ++ (text ++ second)))
        (some (text ++ second)))
      (more : Common first second depth text) : Common first second depth ('"' :: (unit ++ text))

namespace Common

variable {first second : List Char} {depth : Nat} {character : Char} {text : List Char}

theorem depth_of_nil (common : Common first second depth []) : depth = 0 := by
  cases common
  rfl

theorem of_plain (common : Common first second depth (character :: text))
    (plain : isPlain character) : Common first second depth text := by
  obtain ⟨unopened, unclosed, unquoted, unmarked⟩ := isPlain_iff.mp plain
  cases common with
  | plain _ more => exact more
  | opening opens => simp [opens] at unopened
  | closing closes => simp [closes] at unclosed
  | comment => exact absurd rfl unmarked
  | string => exact absurd rfl unquoted

theorem of_plains {run left : List Char} (common : Common first second depth (run ++ left))
    (plain : ∀ character ∈ run, isPlain character) : Common first second depth left := by
  induction run with
  | nil => exact common
  | cons character run ih =>
      apply ih (common.of_plain (plain character List.mem_cons_self))
      exact fun other member => plain other (List.mem_cons_of_mem _ member)

theorem of_opening (common : Common first second depth (character :: text))
    (opens : isOpening character) : Common first second (depth + 1) text := by
  cases common with
  | plain plain => simp [(isPlain_iff.mp plain).1] at opens
  | opening _ more => exact more
  | closing closes => simp [not_isClosing_of_isOpening opens] at closes
  | comment => cases opens
  | string => cases opens

theorem of_closing (common : Common first second (depth + 1) (character :: text))
    (closes : isClosing character) : Common first second depth text := by
  cases common with
  | plain plain => simp [(isPlain_iff.mp plain).2.1] at closes
  | opening opens => simp [not_isClosing_of_isOpening opens] at closes
  | closing _ more => exact more
  | comment => cases closes
  | string => cases closes

theorem of_quote (common : Common first second depth ('"' :: text)) :
    ∃ unit rest, text = unit ++ rest ∧
      (rule .string).Reads grammar .joined ('"' :: (unit ++ (rest ++ first))) (some (rest ++ first)) ∧
      (rule .string).Reads grammar .joined ('"' :: (unit ++ (rest ++ second)))
        (some (rest ++ second)) ∧ Common first second depth rest := by
  cases common with
  | plain plain => cases plain
  | opening opens => cases opens
  | closing closes => cases closes
  | string reads reads' more => exact ⟨_, _, rfl, reads, reads', more⟩

/--
A walk through a text before `tail`, whose units are common, makes all of it common, if its
strings are strings before `second` as well.
-/
theorem of_walk {tail : List Char} {final : Nat}
    (walk : Walk depth (text ++ (tail ++ first)) final (tail ++ first))
    (base : Common first second final tail)
    (solid : ∃ head ∈ tail.head?, isLineEnd head = false)
    (strings : ∀ unit rest inner, Walk depth (text ++ (tail ++ first)) inner (unit ++ (rest ++ first)) →
      (rule .string).Reads grammar .joined (unit ++ (rest ++ first)) (some (rest ++ first)) →
      (rule .string).Reads grammar .joined (unit ++ (rest ++ second)) (some (rest ++ second))) :
    Common first second depth (text ++ tail) := by
  generalize start : text ++ (tail ++ first) = whole at walk
  generalize stop : tail ++ first = rest at walk
  induction walk generalizing text with
  | refl =>
      subst stop
      -- The walk has come to the tail.
      have none : text = [] := by
        have lengths := congrArg List.length start
        rw [List.length_append] at lengths
        exact List.length_eq_zero_iff.mp (by omega)
      rw [none]
      exact base
  | @plain _ character whole _ _ plain more ih =>
      subst stop
      have cut : [character] ++ whole = text ++ (tail ++ first) := start.symm
      rcases exists_middle cut more.suffix.length_le with ⟨others, rfl, rfl⟩
      refine .plain plain (ih base (fun unit rest inner walk => ?_) rfl rfl)
      exact strings unit rest inner (.plain plain walk)
  | @opening _ character whole _ _ opens more ih =>
      subst stop
      have cut : [character] ++ whole = text ++ (tail ++ first) := start.symm
      rcases exists_middle cut more.suffix.length_le with ⟨others, rfl, rfl⟩
      refine .opening opens (ih base (fun unit rest inner walk => ?_) rfl rfl)
      exact strings unit rest inner (.opening opens walk)
  | @closing _ character whole _ _ closes more ih =>
      subst stop
      have cut : [character] ++ whole = text ++ (tail ++ first) := start.symm
      rcases exists_middle cut more.suffix.length_le with ⟨others, rfl, rfl⟩
      refine .closing closes (ih base (fun unit rest inner walk => ?_) rfl rfl)
      exact strings unit rest inner (.closing closes walk)
  | @comment _ body whole _ _ inside ended more ih =>
      subst stop
      rcases exists_middle start.symm more.suffix.length_le with ⟨others, rfl, rfl⟩
      have rest := ih base (fun unit rest inner walk => strings unit rest inner (by
        rw [List.append_assoc]
        exact .comment inside ended walk)) rfl rfl
      cases others with
      | nil =>
          -- The comment would end with the tail, which does not begin with a line end.
          rcases solid with ⟨head, member, inner⟩
          cases tail with
          | nil => cases member
          | cons _ _ =>
              cases member
              rw [ended head rfl] at inner
              cases inner
      | cons ending others =>
          have ends := ended ending rfl
          simp only [List.cons_append, List.append_assoc] at rest ⊢
          exact .comment inside ends rest
  | @string _ whole middle _ _ reads more ih =>
      subst stop
      rcases exists_unit reads with ⟨unit, rfl⟩
      have cut : ('"' :: unit) ++ middle = text ++ (tail ++ first) := start.symm
      rcases exists_middle cut more.suffix.length_le with ⟨others, rfl, rfl⟩
      have rest := ih base (fun unit rest inner walk => strings unit rest inner (by
        rw [List.append_assoc]
        exact .string reads walk)) rfl rfl
      rw [← List.append_assoc others tail first] at reads
      have reads' := strings ('"' :: unit) (others ++ tail) _ (by simpa using .refl) reads
      rw [List.append_assoc]
      exact .string reads reads' rest

end Common

/-! ## Borders and seams -/

/-- What may stand on both sides of a seam. -/
structure Border where
  /-- The characters that may stand before the seam. -/
  last : List Char
  /-- How the text after the seam may begin, apart from blanks. -/
  follows : List String
  /-- Whether a small letter may follow a capital one. Other words never touch at the seam. -/
  glued : Bool

namespace Border

/-- Whether two characters may stand next to each other at the seam. -/
def allows (border : Border) (before after : Char) : Bool :=
  !(isNamePart before && isNamePart after) || border.glued && before.isUpper && after.isLower

/-- A text that may stand after the seam, if `final` stands before it. -/
structure Fits (border : Border) (final : Char) (text : List Char) : Prop where
  touches : ∀ next ∈ text.head?, border.allows final next
  begins : grammar.afterBlanks text = [] ∨
    ∃ word ∈ border.follows, word.toList <+: grammar.afterBlanks text

end Border

/-- A seam: the character before it, and the two texts that may follow it. -/
structure Seam (border : Border) where
  final : Char
  first : List Char
  second : List Char
  final_mem : final ∈ border.last
  final_solid : isSolid final
  final_ne_quote : final ≠ '"'
  fits : border.Fits final first
  fits' : border.Fits final second

namespace Seam

variable {border : Border}

/--
Two texts with a seam ahead of them. If `reached` is set, the seam may also have been reached,
or have been passed by the blanks behind it.
-/
inductive Spot (seam : Seam border) (depth : Nat) (reached : Bool) :
    List Char → List Char → Prop
  | ahead {text} (final : text.getLast? = some seam.final)
      (common : Common seam.first seam.second depth text) :
      Spot seam depth reached (text ++ seam.first) (text ++ seam.second)
  | here (reached_eq : reached) (closed : depth = 0) : Spot seam depth reached seam.first seam.second
  | past (reached_eq : reached) (closed : depth = 0) :
      Spot seam depth reached (grammar.afterBlanks seam.first) (grammar.afterBlanks seam.second)

variable {seam : Seam border} {depth : Nat} {reached : Bool} {text other : List Char}

/-- What is left of the text before the seam, or the seam itself. -/
theorem spot_of_common (before : List Char) {rest : List Char}
    (ends : (before ++ rest).getLast? = some seam.final)
    (common : Common seam.first seam.second depth rest) (closes : rest = [] → reached) :
    seam.Spot depth reached (rest ++ seam.first) (rest ++ seam.second) := by
  cases rest with
  | nil => exact .here (closes rfl) common.depth_of_nil
  | cons character rest =>
      refine .ahead ?_ common
      rw [← ends, List.getLast?_append]
      simp [List.getLast?_cons]

/-- As long as brackets are open, the seam lies ahead. -/
theorem Spot.reached_of_pos (spot : seam.Spot depth reached text other) (opened : 0 < depth)
    (any : Bool) : seam.Spot depth any text other := by
  cases spot with
  | ahead final common => exact .ahead final common
  | here _ closed => omega
  | past _ closed => omega

theorem Spot.weaken (spot : seam.Spot depth false text other) (any : Bool) :
    seam.Spot depth any text other := by
  cases spot with
  | ahead final common => exact .ahead final common
  | here reached => cases reached
  | past reached => cases reached

theorem ahead_of_not_reached (spot : seam.Spot depth false text other) :
    ∃ before, before ≠ [] ∧ before.getLast? = some seam.final ∧ text = before ++ seam.first ∧
      other = before ++ seam.second ∧ Common seam.first seam.second depth before := by
  cases spot with
  | @ahead before final common =>
      refine ⟨before, ?_, final, rfl, rfl, common⟩
      rintro rfl
      cases final
  | here reached => cases reached
  | past reached => cases reached

theorem getLast?_append_of_ne_nil {before rest : List Char} (some : rest ≠ []) :
    (before ++ rest).getLast? = rest.getLast? := by
  cases rest with
  | nil => exact absurd rfl some
  | cons character rest => simp [List.getLast?_append, List.getLast?_cons]

/-- Blanks before the seam are blanks in both texts, and end before it. -/
theorem afterBlanks_common {first second before : List Char}
    (common : Common first second depth before) (ends : ∃ last ∈ before.getLast?, isSolid last) :
    ∃ rest, rest ≠ [] ∧ rest.getLast? = before.getLast? ∧ Common first second depth rest ∧
      ∀ after, grammar.afterBlanks (before ++ after) = rest ++ after := by
  -- All but blanks and comments begin with a solid character, and are not skipped.
  have stays : ∀ {depth : Nat} {character : Char} {text : List Char},
      Common first second depth (character :: text) → isSolid character →
      ∃ rest, rest ≠ [] ∧ rest.getLast? = (character :: text).getLast? ∧
        Common first second depth rest ∧
        ∀ after, grammar.afterBlanks (character :: text ++ after) = rest ++ after := by
    intro depth character text common solid
    exact ⟨_, List.cons_ne_nil _ _, rfl, common, fun after => afterBlanks_solid solid⟩
  induction common with
  | nil =>
      rcases ends with ⟨last, member, _⟩
      cases member
  | @plain depth character text plain more ih =>
      by_cases blank : isBlank character
      · cases text with
        | nil =>
            rcases ends with ⟨last, member, solid⟩
            cases member
            change isSolid character at solid
            rw [isSolid_iff, blank] at solid
            cases solid.1
        | cons next text =>
            rw [List.getLast?_cons_cons] at ends ⊢
            rcases ih ends with ⟨rest, some, last, common, skipped⟩
            refine ⟨rest, some, last, common, fun after => ?_⟩
            rw [List.cons_append, afterBlanks_blank blank, skipped]
      · apply stays (.plain plain more)
        rw [isSolid_iff]
        exact ⟨Bool.eq_false_iff.mpr blank, (isPlain_iff.mp plain).2.2.2⟩
  | opening opens more =>
      apply stays (.opening opens more)
      rcases isOpening_iff.mp opens with rfl | rfl | rfl <;> rfl
  | closing closes more =>
      apply stays (.closing closes more)
      rcases isClosing_iff.mp closes with rfl | rfl | rfl <;> rfl
  | @comment depth body ending text inside lineEnd more ih =>
      have last : ('#' :: (body ++ ending :: text)).getLast? = (ending :: text).getLast? := by
        rw [← List.cons_append]
        exact getLast?_append_of_ne_nil (List.cons_ne_nil _ _)
      rw [last] at ends ⊢
      rcases ih ends with ⟨rest, some, last, common, skipped⟩
      refine ⟨rest, some, last, common, fun after => ?_⟩
      have blank := isBlank_of_isLineEnd lineEnd
      rw [← skipped after, List.cons_append, afterBlanks_comment, List.append_assoc,
        afterComment_append inside, List.cons_append, afterComment_lineEnd lineEnd,
        afterBlanks_blank blank]
  | string reads reads' more =>
      apply stays (.string reads reads' more)
      rfl

theorem Spot.gap (spot : seam.Spot depth reached text other) (spacing : Spacing) :
    seam.Spot depth reached (grammar.gap spacing text) (grammar.gap spacing other) := by
  rw [Grammar.gap, Grammar.gap]
  split
  · cases spot with
    | @ahead before final common =>
        rcases afterBlanks_common common ⟨_, final, seam.final_solid⟩ with
          ⟨rest, some, last, more, skipped⟩
        rw [skipped, skipped]
        exact .ahead (last.trans final) more
    | here reached closed => exact .past reached closed
    | past reached closed =>
        rw [afterBlanks_afterBlanks, afterBlanks_afterBlanks]
        exact .past reached closed
  · exact spot

/-! ## The smallest parts of the grammar -/

theorem Spot.char {accepts : Char → Bool} {character : Char} {rest : List Char}
    (spot : seam.Spot depth false (character :: rest) other) (plain : isPlain character)
    (accepted : accepts character) :
    ∃ rest', other = character :: rest' ∧ seam.Spot depth (border.last.any accepts) rest rest' := by
  rcases ahead_of_not_reached spot with ⟨before, some, final, same, rfl, common⟩
  cases before with
  | nil => exact absurd rfl some
  | cons head before =>
      injection same with same rest_eq
      subst same rest_eq
      refine ⟨before ++ seam.second, rfl, ?_⟩
      refine spot_of_common [character] final (common.of_plain plain) ?_
      rintro rfl
      refine List.any_eq_true.mpr ⟨character, ?_, accepted⟩
      have is : character = seam.final := Option.some.inj final
      rw [is]
      exact seam.final_mem

theorem Spot.head?_eq (spot : seam.Spot depth false text other) : other.head? = text.head? := by
  rcases ahead_of_not_reached spot with ⟨before, some, _, rfl, rfl, _⟩
  cases before with
  | nil => exact absurd rfl some
  | cons head before => rfl

end Seam

/-- Whether the seam cannot cut a fixed text. -/
def Border.keeps (border : Border) : List Char → Bool
  | first :: second :: rest => !border.allows first second && border.keeps (second :: rest)
  | _ => true

section Words

variable {border : Border} {first second before after word : List Char} {around closed opened : Nat}
  {final : Char}

theorem Common.of_plain_word (common : Common first second around before)
    (plain : ∀ character ∈ word, isPlain character) (safe : 0 < around ∨ border.keeps word)
    (ends : before.getLast? = some final)
    (touches : ∀ next ∈ after.head?, border.allows final next) (begins : word <+: before ++ after) :
    ∃ rest, before = word ++ rest ∧ Common first second around rest := by
  induction word generalizing before with
  | nil => exact ⟨before, rfl, common⟩
  | cons character word ih =>
      cases before with
      | nil => cases ends
      | cons head before =>
          obtain ⟨rfl, more⟩ := List.cons_prefix_cons.mp begins
          have rest := common.of_plain (plain character List.mem_cons_self)
          cases before with
          | nil =>
              cases word with
              | nil => exact ⟨[], rfl, rest⟩
              | cons next word =>
                  -- The seam lies inside the word.
                  cases ends
                  have closed := rest.depth_of_nil
                  have keeps := safe.resolve_left (by omega)
                  change next :: word <+: after at more
                  rcases more with ⟨others, rfl⟩
                  have touch : border.allows character next := touches next rfl
                  simp only [Border.keeps, touch, Bool.not_true, Bool.false_and] at keeps
                  cases keeps
          | cons next before =>
              rw [List.getLast?_cons_cons] at ends
              have safe' : 0 < around ∨ border.keeps word := by
                refine safe.imp_right fun keeps => ?_
                cases word with
                | nil => rfl
                | cons other word =>
                    simp only [Border.keeps, Bool.and_eq_true] at keeps
                    exact keeps.2
              rcases ih rest (fun other member => plain other (List.mem_cons_of_mem _ member)) safe'
                ends more with ⟨others, same, common⟩
              exact ⟨others, by rw [same]; rfl, common⟩

/-- A fixed text that begins what follows in a text stands before the seam. -/
theorem Common.of_word (common : Common first second (around + closed) before)
    (effective : wordEffect word = some (closed, opened)) (safe : 0 < around ∨ border.keeps word)
    (ends : before.getLast? = some final)
    (touches : ∀ next ∈ after.head?, border.allows final next) (begins : word <+: before ++ after) :
    ∃ rest, before = word ++ rest ∧ Common first second (around + opened) rest := by
  unfold wordEffect at effective
  split at effective
  · next character =>
      cases before with
      | nil => cases ends
      | cons head before =>
          obtain ⟨rfl, _⟩ := List.cons_prefix_cons.mp begins
          refine ⟨before, rfl, ?_⟩
          split at effective
          · next opens =>
              cases effective
              exact common.of_opening opens
          · split at effective
            · next closes =>
                cases effective
                exact common.of_closing closes
            · split at effective
              · next plain =>
                  cases effective
                  exact common.of_plain plain
              · cases effective
  · split at effective
    · next plain =>
        cases effective
        exact common.of_plain_word (List.all_eq_true.mp plain) safe ends touches begins
    · cases effective

end Words

namespace Seam

variable {border : Border} {seam : Seam border} {depth around closed opened : Nat}
  {text other rest fixed : List Char}

theorem Spot.word (spot : seam.Spot (around + closed) false (fixed ++ rest) other)
    (effective : wordEffect fixed = some (closed, opened)) (safe : 0 < around ∨ border.keeps fixed) :
    ∃ rest', other = fixed ++ rest' ∧
      seam.Spot (around + opened) (fixed.getLast?.any border.last.contains) rest rest' := by
  rcases ahead_of_not_reached spot with ⟨before, _, final, same, rfl, common⟩
  rcases common.of_word effective safe final seam.fits.touches (same ▸ List.prefix_append _ _) with
    ⟨left, rfl, more⟩
  rw [List.append_assoc, List.append_cancel_left_eq] at same
  subst same
  refine ⟨left ++ seam.second, List.append_assoc _ _ _, ?_⟩
  refine spot_of_common fixed final more ?_
  rintro rfl
  rw [List.append_nil] at final
  rw [final, Option.any_some, List.contains_iff_mem]
  exact seam.final_mem

theorem Spot.word_refused (spot : seam.Spot (around + closed) false text other)
    (effective : wordEffect fixed = some (closed, opened)) (safe : 0 < around ∨ border.keeps fixed)
    (refused : ¬fixed <+: text) : ¬fixed <+: other := by
  intro begins
  rcases ahead_of_not_reached spot with ⟨before, _, final, rfl, rfl, common⟩
  rcases common.of_word effective safe final seam.fits'.touches begins with ⟨left, rfl, _⟩
  apply refused
  rw [List.append_assoc]
  exact List.prefix_append _ _

/-- No name goes on over the seam. -/
theorem not_isNamePart_after (apart : !border.glued || !border.last.any isNamePart) {after : List Char}
    (fits : border.Fits seam.final after) (part : isNamePart seam.final) :
    after.head?.any isNamePart = false := by
  cases head : after.head? with
  | none => rfl
  | some next =>
      have touch := fits.touches next head
      rw [Border.allows, part, Bool.true_and] at touch
      rw [Option.any_some]
      rcases Bool.or_eq_true_iff.mp apart with unglued | none
      · rw [Bool.not_eq_true'] at unglued
        simpa [unglued] using touch
      · have any : border.last.any isNamePart := List.any_eq_true.mpr ⟨_, seam.final_mem, part⟩
        simp [any] at none

/-- A name that ends before the seam is read from both texts. -/
theorem Spot.name_of_lt {spacing : Spacing} (spot : seam.Spot depth false text other)
    (reads : (rule .name).Reads grammar spacing text (some rest))
    (ahead : seam.first.length < rest.length) :
    ∃ rest', (rule .name).Reads grammar spacing other (some rest') ∧
      seam.Spot depth false rest rest' := by
  rcases ahead_of_not_reached spot with ⟨before, some, final, rfl, rfl, common⟩
  rcases reads_name_iff.mp reads with ⟨head, run, same, starts, parts, stops⟩
  have cut : (head :: run) ++ rest = before ++ seam.first := same.symm
  rcases exists_middle cut (Nat.le_of_lt ahead) with ⟨left, rfl, rfl⟩
  cases left with
  | nil => exact absurd ahead (Nat.lt_irrefl _)
  | cons next left =>
      refine ⟨next :: left ++ seam.second, reads_name_iff.mpr ⟨head, run, ?_, starts, parts, stops⟩, ?_⟩
      · rw [List.append_assoc]
        rfl
      · refine spot_of_common (head :: run) final (common.of_plains ?_) (fun none => by cases none)
        intro character member
        exact isPlain_of_isNamePart (isNamePart_of_mem_name starts parts character member)

theorem Spot.name {spacing : Spacing} (spot : seam.Spot depth false text other)
    (apart : 0 < depth ∨ !border.glued || !border.last.any isNamePart)
    (reads : (rule .name).Reads grammar spacing text (some rest)) :
    ∃ rest', (rule .name).Reads grammar spacing other (some rest') ∧
      seam.Spot depth (border.last.any isNamePart) rest rest' := by
  rcases Nat.lt_or_ge seam.first.length rest.length with ahead | reached
  · rcases spot.name_of_lt reads ahead with ⟨rest', reads', spot'⟩
    exact ⟨rest', reads', spot'.weaken _⟩
  · rcases ahead_of_not_reached spot with ⟨before, some, final, rfl, rfl, common⟩
    rcases reads_name_iff.mp reads with ⟨head, run, same, starts, parts, stops⟩
    have cut : before ++ seam.first = (head :: run) ++ rest := same
    rcases exists_middle cut reached with ⟨middle, split, first⟩
    have all : ∀ character ∈ before ++ middle, isNamePart character := by
      rw [← split]
      exact isNamePart_of_mem_name starts parts
    have part : isNamePart seam.final :=
      all _ (List.mem_append_left _ (List.mem_of_getLast? final))
    have closed : depth = 0 := by
      rw [← List.append_nil before] at common
      apply (common.of_plains fun character member => ?_).depth_of_nil
      exact isPlain_of_isNamePart (all character (List.mem_append_left _ member))
    have safe := apart.resolve_left (by omega)
    have ending : border.last.any isNamePart :=
      List.any_eq_true.mpr ⟨_, seam.final_mem, part⟩
    -- The name does not go on over the seam in either text.
    have ends := not_isNamePart_after safe seam.fits part
    have ends' := not_isNamePart_after safe seam.fits' part
    cases middle with
    | nil =>
        rw [List.append_nil] at split
        rw [List.nil_append] at first
        subst split first
        exact ⟨seam.second, reads_name_iff.mpr ⟨head, run, rfl, starts, parts, ends'⟩,
          .here ending closed⟩
    | cons next middle =>
        rw [first, List.cons_append, List.head?_cons, Option.any_some,
          all next (List.mem_append_right _ List.mem_cons_self)] at ends
        cases ends

theorem Spot.name_refused {spacing : Spacing} (spot : seam.Spot depth false text other)
    (refused : (rule .name).Reads grammar spacing text none) :
    (rule .name).Reads grammar spacing other none := by
  rw [reads_name_none_iff] at refused ⊢
  rw [spot.head?_eq]
  exact refused

theorem string_spacing {spacing spacing' : Spacing}
    (reads : (rule .string).Reads grammar spacing text (some rest)) :
    (rule .string).Reads grammar spacing' text (some rest) :=
  reads_string_iff.mpr (reads_string_iff.mp reads)

/-- Where a quote stands before the seam, both texts have the same string. -/
theorem Spot.string_of_quote (spacing : Spacing) (spot : seam.Spot depth false text other)
    (quote : text.head? = some '"') :
    ∃ left left', (rule .string).Reads grammar spacing text (some left) ∧
      (rule .string).Reads grammar spacing other (some left') ∧
      seam.Spot depth false left left' := by
  rcases ahead_of_not_reached spot with ⟨before, nonempty, final, rfl, rfl, common⟩
  cases before with
  | nil => exact absurd rfl nonempty
  | cons head before =>
      cases quote
      rcases common.of_quote with ⟨unit, left, rfl, here, there, more⟩
      refine ⟨left ++ seam.first, left ++ seam.second, ?_, ?_, ?_⟩
      · rw [List.cons_append, List.append_assoc]
        exact string_spacing here
      · rw [List.cons_append, List.append_assoc]
        exact string_spacing there
      · refine spot_of_common ('"' :: unit) final more ?_
        rintro rfl
        have reads : (rule .string).Reads grammar .joined ('"' :: unit ++ seam.first)
            (some seam.first) := here
        rw [List.append_nil, string_last reads] at final
        exact absurd (Option.some.inj final).symm seam.final_ne_quote

theorem Spot.string {spacing : Spacing} (spot : seam.Spot depth false text other)
    (reads : (rule .string).Reads grammar spacing text (some rest)) :
    ∃ rest', (rule .string).Reads grammar spacing other (some rest') ∧
      seam.Spot depth false rest rest' := by
  rcases string_head reads with ⟨more, rfl⟩
  rcases spot.string_of_quote spacing rfl with ⟨left, left', here, there, after⟩
  cases reads.unique here
  exact ⟨left', there, after⟩

theorem Spot.string_refused {spacing : Spacing} (spot : seam.Spot depth false text other)
    (refused : (rule .string).Reads grammar spacing text none) :
    (rule .string).Reads grammar spacing other none := by
  rcases orderly.exists_reads spacing (rule .string) rfl other with ⟨answer, reads⟩
  cases answer with
  | none => exact reads
  | some rest =>
      rcases string_head reads with ⟨more, rfl⟩
      rcases spot.string_of_quote spacing spot.head?_eq.symm with ⟨left, _, here, _⟩
      cases refused.unique here

end Seam

end PreviewLint.GraphQL
