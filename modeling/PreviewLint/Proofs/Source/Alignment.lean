import PreviewLint.Proofs.Source.Lexemes

/-!
# Where lexemes meet units

The lexemes of a text are cut by rules of their own, but as long as its comments end with their
lines and its block strings are closed, a boundary of two units is also one of two lexemes,
unless it lies inside of a name or behind a comment. There the lexemes of the text are those of
its two parts.
-/

namespace PreviewLint.Outline

open GraphQL Peg

/-- A lexeme that begins with three quotes is a whole block string. -/
def ClosesBlock (lexeme : List Char) : Prop :=
  "\"\"\"".toList <+: lexeme → blockRest (lexeme.drop 3) = some []

instance (lexeme : List Char) : Decidable (ClosesBlock lexeme) := inferInstanceAs (Decidable (_ → _))

/-- A comment that ends with its line, a string that is closed, or any other lexeme. -/
def Regular (lexeme : List Char) : Prop := EndsComment lexeme ∧ ClosesBlock lexeme

instance (lexeme : List Char) : Decidable (Regular lexeme) := inferInstanceAs (Decidable (_ ∧ _))

theorem lexemes_inj {text other : List Char} (same : lexemes text = lexemes other) : text = other := by
  rw [← flatten_lexemes text, same, flatten_lexemes]

theorem exists_of_lexemes_eq_cons {text lexeme : List Char} {others : List (List Char)}
    (split : lexemes text = lexeme :: others) :
    ∃ first rest, text = first :: rest ∧ first :: rest.take (tailLength first rest) = lexeme ∧
      lexemes (rest.drop (tailLength first rest)) = others := by
  cases text with
  | nil =>
      rw [lexemes] at split
      cases split
  | cons first rest =>
      rw [lexemes] at split
      obtain ⟨here, more⟩ := List.cons.inj split
      exact ⟨first, rest, rfl, here, more⟩

/-! ## The length of a lexeme -/

/-- A character that is a lexeme of its own. -/
structure Single (first : Char) : Prop where
  unnamed : isNameStart first = false
  unquoted : first ≠ '"'
  unmarked : first ≠ '#'

/-- A lexeme is a comment, a string, a name or a single character. -/
theorem tailLength_cases (first : Char) :
    (first = '#' ∧ ∀ text, tailLength first text = (text.takeWhile (· != '\n')).length) ∨
      (first = '"' ∧ ∀ text, tailLength first text = stringLength text) ∨
      (isNameStart first ∧ ∀ text, tailLength first text = (text.takeWhile isNamePart).length) ∨
      (Single first ∧ ∀ text, tailLength first text = 0) := by
  by_cases marked : first = '#'
  · subst marked
    exact Or.inl ⟨rfl, fun _ => rfl⟩
  by_cases quoted : first = '"'
  · subst quoted
    exact Or.inr (Or.inl ⟨rfl, fun _ => rfl⟩)
  cases starts : isNameStart first with
  | true => exact Or.inr (Or.inr (Or.inl ⟨rfl, fun _ => by simp [tailLength, marked, quoted, starts]⟩))
  | false =>
      refine Or.inr (Or.inr (Or.inr ⟨⟨starts, quoted, marked⟩, fun _ => ?_⟩))
      simp [tailLength, marked, quoted, starts]

section Append

variable {text back : List Char}

theorem length_takeWhile_append {accepts : Char → Bool}
    (within : ((text ++ back).takeWhile accepts).length ≤ text.length) :
    (text.takeWhile accepts).length = ((text ++ back).takeWhile accepts).length := by
  rw [List.takeWhile_append] at within ⊢
  split at within
  · next all =>
      rw [if_pos all]
      rw [List.length_append] at within ⊢
      omega
  · next some => rw [if_neg some]

theorem quotedLength_append (within : quotedLength (text ++ back) ≤ text.length) :
    quotedLength text = quotedLength (text ++ back) := by
  fun_induction quotedLength text with
  | case1 second rest ih =>
      simp only [List.cons_append, quotedLength, List.length_cons] at within ⊢
      rw [ih (by omega)]
  | case2 rest => rfl
  | case3 rest => rfl
  | case4 character rest escape quote feed ih =>
      rw [List.cons_append] at within ⊢
      by_cases cut : character = '\\' ∧ rest = []
      · rcases cut with ⟨rfl, rfl⟩
        cases back with
        | nil => rfl
        | cons second back =>
            simp only [List.nil_append, quotedLength, List.length_cons, List.length_nil] at within
            omega
      · have whole : character = '\\' → rest ++ back = [] := by
          rintro rfl
          cases rest with
          | nil => exact absurd ⟨rfl, rfl⟩ cut
          | cons second rest => exact absurd rfl (escape second rest rfl)
        rw [quotedLength_cons whole quote feed] at within ⊢
        rw [List.length_cons] at within
        rw [ih (by omega)]
  | case5 =>
      rw [List.nil_append, List.length_nil] at within
      exact (Nat.le_zero.mp within).symm

theorem blockLength_append (within : blockLength (text ++ back) ≤ text.length) :
    blockLength text = blockLength (text ++ back) := by
  fun_induction blockLength text with
  | case1 rest ih =>
      simp only [List.cons_append, blockLength, List.length_cons] at within ⊢
      rw [ih (by omega)]
  | case2 rest => rfl
  | case3 character rest escape quotes ih =>
      have next : blockLength (character :: (rest ++ back)) = blockLength (rest ++ back) + 1 := by
        rw [blockLength]
        · rintro more rfl split
          rw [List.cons_append, split, blockLength, List.length_cons] at within
          have lengths := congrArg List.length split
          simp only [List.length_append, List.length_cons] at lengths
          have cut : ['"', '"', '"'] ++ more = rest ++ back := split.symm
          rcases exists_middle cut (by omega) with ⟨middle, rfl, _⟩
          exact escape middle rfl rfl
        · rintro more rfl split
          rw [List.cons_append, split, blockLength, List.length_cons] at within
          have lengths := congrArg List.length split
          simp only [List.length_append, List.length_cons] at lengths
          have cut : ['"', '"'] ++ more = rest ++ back := split.symm
          rcases exists_middle cut (by omega) with ⟨middle, rfl, _⟩
          exact quotes middle rfl rfl
      rw [List.cons_append, next] at within ⊢
      rw [List.length_cons] at within
      rw [ih (by omega)]
  | case4 =>
      rw [List.nil_append, List.length_nil] at within
      exact (Nat.le_zero.mp within).symm

theorem stringLength_append (within : stringLength (text ++ back) ≤ text.length) :
    stringLength text = stringLength (text ++ back) := by
  by_cases block : ∃ more, text = '"' :: '"' :: more
  · rcases block with ⟨more, rfl⟩
    simp only [List.cons_append, stringLength_block, List.length_cons] at within ⊢
    have shorter : blockLength (more ++ back) ≤ more.length := by omega
    rw [blockLength_append shorter]
  · have single : ∀ more, text ++ back ≠ '"' :: '"' :: more := by
      intro more split
      rw [split, stringLength_block] at within
      have cut : ['"', '"'] ++ more = text ++ back := split.symm
      have lengths := congrArg List.length cut
      simp only [List.length_append, List.length_cons, List.length_nil] at lengths
      rcases exists_middle cut (by omega) with ⟨middle, rfl, _⟩
      exact block ⟨middle, rfl⟩
    rw [stringLength_quoted single] at within ⊢
    rw [stringLength_quoted fun more same => block ⟨more, same⟩]
    exact quotedLength_append within

theorem tailLength_append {first : Char} (within : tailLength first (text ++ back) ≤ text.length) :
    tailLength first text = tailLength first (text ++ back) := by
  rcases tailLength_cases first with ⟨_, size⟩ | ⟨_, size⟩ | ⟨_, size⟩ | ⟨_, size⟩ <;>
    simp only [size] at within ⊢
  · exact length_takeWhile_append within
  · exact stringLength_append within
  · exact length_takeWhile_append within

end Append

/-! ## Boundaries -/

/-- A string of the grammar is a lexeme, if block strings are closed. -/
theorem drop_stringLength {text middle : List Char}
    (reads : (rule .string).Reads grammar .joined ('"' :: text) (some middle))
    (closes : ClosesBlock ('"' :: text.take (stringLength text))) :
    text.drop (stringLength text) = middle := by
  by_cases block : ∃ more, text = '"' :: '"' :: more
  · rcases block with ⟨more, rfl⟩
    rw [stringLength_block] at closes ⊢
    have closing := closes ⟨more.take (blockLength more), rfl⟩
    have closing' : blockRest (more.take (blockLength more)) = some [] := closing
    have whole := blockRest_append closing' (more.drop (blockLength more))
    rw [List.take_append_drop, List.nil_append] at whole
    have unit : (rule .string).Reads grammar .joined ('"' :: '"' :: '"' :: more) _ :=
      reads_string_iff.mpr (Or.inl ⟨more, rfl, whole⟩)
    exact Option.some.inj (unit.unique reads)
  · have single : ∀ more, text ≠ '"' :: '"' :: more := fun more same => block ⟨more, same⟩
    rw [stringLength_quoted single]
    rcases reads_string_iff.mp reads with ⟨content, split, _⟩ | ⟨_, content, split, quoted⟩
    · injection split with _ split
      exact absurd split (single content)
    · injection split with _ split
      subst split
      exact drop_quotedLength quoted

/--
A boundary of units between two parts of a text, at which no name goes on, and no carriage return
ends a comment.
-/
structure Boundary (depth : Nat) (front : List Char) (final : Nat) (back : List Char) : Prop where
  walk : Walk depth (front ++ back) final back
  apart : front.getLast?.any isNamePart → back.head?.any isNamePart = false
  uncommented : (∀ next ∈ back.head?, isLineEnd next = false) ∨
    ∃ last middle, front.getLast? = some last ∧ last ≠ '#' ∧
      Walk depth (front ++ back) middle (last :: back)

theorem length_blockLength_le (text : List Char) : blockLength text ≤ text.length := by
  fun_induction blockLength text <;> simp_all

theorem tailLength_le (first : Char) (text : List Char) : tailLength first text ≤ text.length := by
  rcases tailLength_cases first with ⟨_, size⟩ | ⟨_, size⟩ | ⟨_, size⟩ | ⟨_, size⟩ <;> rw [size]
  · exact (List.takeWhile_prefix _).length_le
  · by_cases block : ∃ more, text = '"' :: '"' :: more
    · rcases block with ⟨more, rfl⟩
      have shorter := length_blockLength_le more
      simp only [stringLength_block, List.length_cons]
      omega
    · rw [stringLength_quoted fun more same => block ⟨more, same⟩]
      exact length_quoted_le text
  · exact (List.takeWhile_prefix _).length_le
  · exact Nat.zero_le _

namespace Boundary

variable {depth final : Nat} {first : Char} {front back : List Char}

/-- No name runs over a boundary. -/
theorem name_within (boundary : Boundary depth (first :: front) final back) (starts : isNameStart first) :
    ((front ++ back).takeWhile isNamePart).length ≤ front.length := by
  rw [List.takeWhile_append]
  split
  · next all =>
      have parts : front.takeWhile isNamePart = front :=
        (List.takeWhile_prefix _).eq_of_length all
      have named : (first :: front).getLast?.any isNamePart := by
        rcases List.eq_nil_or_concat front with rfl | ⟨before, last, rfl⟩
        · exact isNamePart_of_isNameStart starts
        · rw [List.concat_eq_append] at parts ⊢
          have part := List.all_eq_true.mp List.all_takeWhile last (by rw [parts]; simp)
          rw [← List.cons_append, List.getLast?_concat]
          exact part
      have stops := boundary.apart named
      cases back with
      | nil => simp
      | cons next back =>
          have ended : isNamePart next = false := stops
          simp [ended]
  · exact (List.takeWhile_prefix _).length_le

/-- Nor does a comment. -/
theorem comment_within (boundary : Boundary depth ('#' :: front) final back)
    (ends : EndsComment ('#' :: (front ++ back).takeWhile (· != '\n'))) :
    Walk depth ('#' :: (front ++ back)) depth ((front ++ back).dropWhile (· != '\n')) ∧
      back.length ≤ ((front ++ back).dropWhile (· != '\n')).length := by
  rcases comment_units ends with ⟨body, tail, lexeme, inside, tail_eq⟩
  have ended := ends_comment (kept_refl ((front ++ back).dropWhile (· != '\n')))
  have whole : (front ++ back).takeWhile (· != '\n') ++ (front ++ back).dropWhile (· != '\n') =
    front ++ back := List.takeWhile_append_dropWhile
  have uncommented := boundary.uncommented
  have walk := boundary.walk
  generalize (front ++ back).dropWhile (· != '\n') = rest at ended whole ⊢
  rw [lexeme, List.append_assoc] at whole
  have size : (body ++ (tail ++ rest)).length = front.length + back.length := by
    rw [whole, List.length_append]
  rw [List.cons_append, ← whole] at walk uncommented
  rw [← whole]
  rcases tail_eq with rfl | rfl
  · rw [List.nil_append] at *
    exact ⟨.comment inside ended .refl, (walk.of_comment inside ended (by omega)).suffix.length_le⟩
  · have returns : ∀ character ∈ (['\r'] ++ rest).head?, isLineEnd character := by
      rintro character ⟨⟩
      rfl
    have line := walk.of_comment inside returns (by omega)
    refine ⟨.comment inside returns (.plain (by decide) .refl), Nat.le_of_not_lt fun longer => ?_⟩
    obtain ⟨rfl, _⟩ := line.eq_of_length_le longer
    -- The carriage return would stand behind the comment, and not behind a unit of its own.
    rcases uncommented with inner | ⟨last, middle, last_eq, unmarked, unit⟩
    · cases inner '\r' rfl
    · have some : front ≠ [] := by
        rintro rfl
        cases last_eq
        exact unmarked rfl
      have positive := List.length_pos_iff.mpr some
      have again := unit.of_comment inside returns (by rw [List.length_cons]; omega)
      have longer := again.suffix.length_le
      rw [List.length_cons] at longer
      omega

/-- A lexeme at the beginning of the first part belongs to it. -/
theorem lexeme (boundary : Boundary depth (first :: front) final back)
    (regular : Regular (first :: (front ++ back).take (tailLength first (front ++ back)))) :
    ∃ deeper, Walk depth (first :: (front ++ back)) deeper
        ((front ++ back).drop (tailLength first (front ++ back))) ∧
      tailLength first (front ++ back) ≤ front.length := by
  have walk := boundary.walk
  rw [List.cons_append] at walk
  have within : ∀ {size : Nat}, size ≤ (front ++ back).length →
      back.length ≤ ((front ++ back).drop size).length → size ≤ front.length := by
    intro size bound longer
    rw [List.length_drop, List.length_append] at longer
    rw [List.length_append] at bound
    omega
  have bound := tailLength_le first (front ++ back)
  rcases tailLength_cases first with ⟨rfl, size⟩ | ⟨rfl, size⟩ | ⟨starts, size⟩ | ⟨single, size⟩ <;>
    rw [size] at regular bound ⊢
  · rw [take_takeWhile] at regular
    have comment := boundary.comment_within regular.1
    rw [← drop_takeWhile] at comment
    exact ⟨depth, comment.1, within bound comment.2⟩
  · rcases walk.exists_string (by simp) with ⟨middle, reads, more⟩
    have ends := drop_stringLength reads regular.2
    refine ⟨depth, ?_, within bound ?_⟩
    · rw [ends]
      exact .string reads .refl
    · rw [ends]
      exact more.suffix.length_le
  · refine ⟨depth, ?_, boundary.name_within starts⟩
    rw [drop_takeWhile]
    refine .plain (isPlain_of_isNamePart (isNamePart_of_isNameStart starts)) ?_
    have plain : Walk depth
        ((front ++ back).takeWhile isNamePart ++ (front ++ back).dropWhile isNamePart) depth
        ((front ++ back).dropWhile isNamePart) :=
      walk_plain fun character member => isPlain_of_isNamePart
        (List.all_eq_true.mp List.all_takeWhile character member)
    rw [List.takeWhile_append_dropWhile] at plain
    exact plain
  · rw [List.drop_zero]
    cases opens : isOpening first with
    | true => exact ⟨_, .opening opens .refl, Nat.zero_le _⟩
    | false =>
        cases closes : isClosing first with
        | true =>
            rcases walk.of_closing closes (by simp) with ⟨outer, rfl, _⟩
            exact ⟨outer, .closing closes .refl, Nat.zero_le _⟩
        | false =>
            have plain := isPlain_iff.mpr ⟨opens, closes, single.unquoted, single.unmarked⟩
            exact ⟨depth, .plain plain .refl, Nat.zero_le _⟩

/-- The rest of the first part has the same boundary behind it. -/
theorem of_lexeme (boundary : Boundary depth front final back) (size : Nat) {deeper : Nat}
    (walk : Walk depth (front ++ back) deeper (front.drop size ++ back))
    (some : front.drop size ≠ []) : Boundary deeper (front.drop size) final back := by
  have last_eq : (front.drop size).getLast? = front.getLast? := by
    rw [List.getLast?_drop]
    split
    · next all => exact absurd (List.drop_eq_nil_of_le all) some
    · rfl
  have positive := List.length_pos_iff.mpr some
  constructor
  case walk => exact walk.linear boundary.walk (by rw [List.length_append]; omega)
  case apart =>
    rw [last_eq]
    exact boundary.apart
  case uncommented =>
    refine boundary.uncommented.imp_right ?_
    rintro ⟨last, middle, same, unmarked, unit⟩
    refine ⟨last, middle, last_eq.trans same, unmarked, walk.linear unit ?_⟩
    rw [List.length_append, List.length_cons]
    omega

end Boundary

/-- At a boundary of units the lexemes of a text are those of its parts. -/
theorem lexemes_append {depth final : Nat} {front back : List Char}
    (boundary : front ≠ [] → Boundary depth front final back)
    (regular : ∀ lexeme ∈ lexemes (front ++ back), Regular lexeme) :
    lexemes (front ++ back) = lexemes front ++ lexemes back := by
  generalize size_eq : front.length = size
  induction size using Nat.strongRecOn generalizing depth front with
  | ind size ih =>
      cases front with
      | nil => simp [lexemes]
      | cons first front =>
          have here := boundary (List.cons_ne_nil _ _)
          rw [List.cons_append, lexemes] at regular ⊢
          rcases here.lexeme (regular _ List.mem_cons_self) with ⟨deeper, walk, within⟩
          have same := tailLength_append within
          rw [List.drop_append_of_le_length within] at walk regular ⊢
          rw [List.take_append_of_le_length within, lexemes, same, List.cons_append]
          congr 1
          have shorter : (front.drop (tailLength first (front ++ back))).length < size := by
            rw [← size_eq, List.length_drop, List.length_cons]
            omega
          have more : front.drop (tailLength first (front ++ back)) ≠ [] →
              Boundary deeper (front.drop (tailLength first (front ++ back))) final back :=
            here.of_lexeme (tailLength first (front ++ back) + 1) walk
          exact ih _ shorter more (fun lexeme member => regular lexeme (List.mem_cons_of_mem _ member)) rfl

/-- An empty string of a text with regular lexemes is not one half of three quotes. -/
theorem not_doubtful {text unit rest : List Char} {depth final : Nat}
    (regular : ∀ lexeme ∈ lexemes text, Regular lexeme) (walk : Walk depth text final (unit ++ rest))
    (reads : (rule .string).Reads grammar .joined (unit ++ rest) (some rest)) :
    ¬Doubtful unit rest := by
  rintro ⟨rfl, head⟩
  obtain ⟨more, rfl⟩ : ∃ more, rest = '"' :: more := by
    cases rest with
    | nil => cases head
    | cons next more =>
        cases head
        exact ⟨more, rfl⟩
  simp only [List.cons_append, List.nil_append] at walk reads
  rcases walk.suffix with ⟨front, rfl⟩
  have boundary : Boundary depth front final ('"' :: '"' :: '"' :: more) := {
    walk
    apart := fun _ => rfl
    uncommented := Or.inl (by rintro next ⟨⟩; rfl) }
  have split := lexemes_append (fun _ => boundary) regular
  have here : '"' :: ('"' :: '"' :: more).take (stringLength ('"' :: '"' :: more)) ∈
      lexemes (front ++ '"' :: '"' :: '"' :: more) := by
    have begins : '"' :: ('"' :: '"' :: more).take (stringLength ('"' :: '"' :: more)) ∈
        lexemes ('"' :: '"' :: '"' :: more) := by
      rw [lexemes]
      exact List.mem_cons_self
    rw [split]
    exact List.mem_append_right _ begins
  have ends := drop_stringLength reads (regular _ here).2
  rw [stringLength_block] at ends
  have lengths := congrArg List.length ends
  simp only [List.length_drop, List.length_cons] at lengths
  omega

end PreviewLint.Outline
