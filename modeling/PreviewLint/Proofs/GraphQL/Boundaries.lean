import PreviewLint.Proofs.GraphQL.Brackets
import PreviewLint.Proofs.GraphQL.Strings

/-!
# Boundaries of units

A text is cut into units in one way only, so that of two walks from one place the longer one
goes on from the end of the shorter one. A boundary inside of blanks and comments cuts them in
two, unless it is the end of a comment.
-/

namespace PreviewLint.GraphQL

open Peg

theorem not_isPlain_quote : ¬isPlain '"' := by decide

theorem not_isPlain_mark : ¬isPlain '#' := by decide

/-- A comment ends with its line. -/
theorem comment_body_unique {body body' text text' : List Char}
    (inside : ∀ character ∈ body, isLineEnd character = false)
    (inside' : ∀ character ∈ body', isLineEnd character = false)
    (ended : ∀ character ∈ text.head?, isLineEnd character)
    (ended' : ∀ character ∈ text'.head?, isLineEnd character) (same : body ++ text = body' ++ text') :
    body = body' ∧ text = text' := by
  induction body generalizing body' with
  | nil =>
      cases body' with
      | nil => exact ⟨rfl, same⟩
      | cons other body' =>
          have ends : isLineEnd other := ended other (by rw [← List.nil_append text, same]; rfl)
          rw [inside' other List.mem_cons_self] at ends
          cases ends
  | cons character body ih =>
      cases body' with
      | nil =>
          have ends : isLineEnd character := ended' character (by rw [← List.nil_append text', ← same]; rfl)
          rw [inside character List.mem_cons_self] at ends
          cases ends
      | cons other body' =>
          injection same with same more
          subst same
          rcases ih (fun _ member => inside _ (List.mem_cons_of_mem _ member))
            (fun _ member => inside' _ (List.mem_cons_of_mem _ member)) more with ⟨rfl, rfl⟩
          exact ⟨rfl, rfl⟩

namespace Walk

variable {depth middle final : Nat} {text between rest : List Char} {character : Char}

theorem eq_of_length_le (walk : Walk depth text final rest) (still : text.length ≤ rest.length) :
    text = rest ∧ depth = final :=
  ⟨(walk.suffix.eq_of_length_le still).symm, walk.depth_eq_of_length_le still⟩

/-! A walk that goes anywhere begins with the first unit of the text. -/

theorem of_plain (walk : Walk depth (character :: text) final rest) (plain : isPlain character)
    (moves : rest.length ≤ text.length) : Walk depth text final rest := by
  obtain ⟨unopened, unclosed, unquoted, unmarked⟩ := isPlain_iff.mp plain
  cases walk with
  | refl =>
      rw [List.length_cons] at moves
      omega
  | plain _ more => exact more
  | opening opens => simp [opens] at unopened
  | closing closes => simp [closes] at unclosed
  | comment => exact absurd rfl unmarked
  | string reads =>
      rcases string_head reads with ⟨_, same⟩
      cases same
      exact absurd rfl unquoted

theorem of_opening (walk : Walk depth (character :: text) final rest) (opens : isOpening character)
    (moves : rest.length ≤ text.length) : Walk (depth + 1) text final rest := by
  cases walk with
  | refl =>
      rw [List.length_cons] at moves
      omega
  | plain plain => simp [(isPlain_iff.mp plain).1] at opens
  | opening _ more => exact more
  | closing closes => simp [not_isClosing_of_isOpening opens] at closes
  | comment => cases opens
  | string reads =>
      rcases string_head reads with ⟨_, same⟩
      cases same
      cases opens

theorem of_closing (walk : Walk depth (character :: text) final rest) (closes : isClosing character)
    (moves : rest.length ≤ text.length) : ∃ outer, depth = outer + 1 ∧ Walk outer text final rest := by
  cases walk with
  | refl =>
      rw [List.length_cons] at moves
      omega
  | plain plain => simp [(isPlain_iff.mp plain).2.1] at closes
  | opening opens => simp [not_isClosing_of_isOpening opens] at closes
  | closing _ more => exact ⟨_, rfl, more⟩
  | comment => cases closes
  | string reads =>
      rcases string_head reads with ⟨_, same⟩
      cases same
      cases closes

theorem of_comment {body : List Char} (walk : Walk depth ('#' :: (body ++ text)) final rest)
    (inside : ∀ character ∈ body, isLineEnd character = false)
    (ended : ∀ character ∈ text.head?, isLineEnd character)
    (moves : rest.length ≤ (body ++ text).length) : Walk depth text final rest := by
  generalize whole : '#' :: (body ++ text) = start at walk
  cases walk with
  | refl =>
      subst whole
      rw [List.length_cons] at moves
      omega
  | plain plain =>
      injection whole with same
      subst same
      exact absurd plain not_isPlain_mark
  | opening opens =>
      injection whole with same
      subst same
      cases opens
  | closing closes =>
      injection whole with same
      subst same
      cases closes
  | comment inside' ended' more =>
      injection whole with _ same
      rcases comment_body_unique inside inside' ended ended' same with ⟨_, rfl⟩
      exact more
  | string reads =>
      rcases string_head reads with ⟨_, same⟩
      rw [same] at whole
      cases whole

theorem of_string (walk : Walk depth text final rest)
    (reads : (rule .string).Reads grammar .joined text (some between))
    (moves : rest.length < text.length) : Walk depth between final rest := by
  rcases string_head reads with ⟨content, rfl⟩
  cases walk with
  | refl => omega
  | plain plain => exact absurd plain not_isPlain_quote
  | opening opens => cases opens
  | closing closes => cases closes
  | string reads' more =>
      cases reads.unique reads'
      exact more

/-- Where a quote begins a unit, the unit is a string. -/
theorem exists_string (walk : Walk depth ('"' :: text) final rest) (moves : rest.length ≤ text.length) :
    ∃ middle, (rule .string).Reads grammar .joined ('"' :: text) (some middle) ∧
      Walk depth middle final rest := by
  cases walk with
  | refl =>
      rw [List.length_cons] at moves
      omega
  | plain plain => exact absurd plain not_isPlain_quote
  | opening opens => cases opens
  | closing closes => cases closes
  | string reads more => exact ⟨_, reads, more⟩

/-- Of two walks from one place, the longer one goes on from the end of the shorter one. -/
theorem linear (first : Walk depth text middle between) (second : Walk depth text final rest)
    (longer : rest.length ≤ between.length) : Walk middle between final rest := by
  induction first with
  | refl => exact second
  | plain plain more ih =>
      exact ih (second.of_plain plain (Nat.le_trans longer more.suffix.length_le)) longer
  | opening opens more ih =>
      exact ih (second.of_opening opens (Nat.le_trans longer more.suffix.length_le)) longer
  | closing closes more ih =>
      rcases second.of_closing closes (Nat.le_trans longer more.suffix.length_le) with ⟨_, same, others⟩
      cases same
      exact ih others longer
  | @comment _ body text _ _ inside ended more ih =>
      have shorter := more.suffix.length_le
      have moves : rest.length ≤ (body ++ text).length := by
        rw [List.length_append]
        omega
      exact ih (second.of_comment inside ended moves) longer
  | string reads more ih =>
      have shorter := more.suffix.length_le
      rcases exists_unit reads with ⟨unit, rfl⟩
      refine ih (second.of_string reads ?_) longer
      simp only [List.length_cons, List.length_append]
      omega

end Walk

/-! ## Blanks and comments -/

/-- A boundary inside of blanks and comments that is not the end of a comment cuts them in two. -/
theorem Ignored.split_of_walk {gap text rest : List Char} {depth final : Nat} (ignored : Ignored gap)
    (walk : Walk depth (gap ++ text) final rest) (inside : text.length ≤ rest.length)
    (next : ∀ character ∈ rest.head?, isLineEnd character = false) :
    ∃ before after, gap = before ++ after ∧ rest = after ++ text ∧ Ignored before ∧ Ignored after := by
  induction ignored with
  | nil =>
      rcases walk.eq_of_length_le inside with ⟨rfl, _⟩
      exact ⟨[], [], rfl, rfl, .nil, .nil⟩
  | @blank character gap blank more ih =>
      rcases Nat.lt_or_ge (gap ++ text).length rest.length with still | moves
      · rcases walk.eq_of_length_le (by rw [List.cons_append, List.length_cons]; omega) with ⟨rfl, _⟩
        exact ⟨[], character :: gap, rfl, rfl, .nil, .blank blank more⟩
      · rcases ih (walk.of_plain (isPlain_of_isBlank blank) moves) with
          ⟨before, after, rfl, rfl, one, other⟩
        exact ⟨character :: before, after, rfl, rfl, .blank blank one, other⟩
  | @comment body ending gap within ends more ih =>
      have whole : '#' :: body ++ ending :: gap ++ text = '#' :: (body ++ ending :: (gap ++ text)) := by
        simp
      rw [whole] at walk
      rcases Nat.lt_or_ge (body ++ ending :: (gap ++ text)).length rest.length with still | moves
      · rcases walk.eq_of_length_le (by rw [List.length_cons]; omega) with ⟨rfl, _⟩
        exact ⟨[], _, rfl, whole.symm, .nil, .comment within ends more⟩
      · have ended : ∀ character ∈ (ending :: (gap ++ text)).head?, isLineEnd character := by
          rintro character ⟨⟩
          exact ends
        have line := walk.of_comment within ended moves
        rcases Nat.lt_or_ge (gap ++ text).length rest.length with still | moves
        · -- The boundary would be the end of the comment.
          rcases line.eq_of_length_le (by rw [List.length_cons]; omega) with ⟨rfl, _⟩
          have inner := next ending rfl
          rw [ends] at inner
          cases inner
        · rcases ih (line.of_plain (isPlain_of_isBlank (isBlank_of_isLineEnd ends)) moves) with
            ⟨before, after, rfl, rfl, one, other⟩
          refine ⟨'#' :: body ++ ending :: before, after, ?_, rfl, .comment within ends one, other⟩
          simp

theorem isLineEnd_of_isSolid {character : Char} (solid : isSolid character) :
    isLineEnd character = false := by
  refine Bool.eq_false_iff.mpr fun ends => ?_
  have unblank := (isSolid_iff.mp solid).1
  rw [isBlank_of_isLineEnd ends] at unblank
  cases unblank

end PreviewLint.GraphQL
