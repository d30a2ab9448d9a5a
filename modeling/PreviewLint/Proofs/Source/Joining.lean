import PreviewLint.Proofs.Source.Division
import PreviewLint.Proofs.Source.Lexemes

/-!
# Joining the halves of a text

The definitions of a text that mixes both kinds are read from its two halves. A definition may
go on in its half over a section of the other kind, which is blanked there, and such a text is
not a series of definitions. If every definition stands in the text as it stands in its half,
then the pieces of the two halves divide the text itself: no section of the other kind begins
inside of them, and what is left of the text are blanks and comments of one half or the other.
-/

namespace PreviewLint

open GraphQL Outline Peg

namespace Row

variable {offset : Nat} {text : List Char} {pieces : List Piece}

theorem of_blank {character : Char} (blank : isBlank character)
    (row : Row Proper offset (character :: text) pieces) : Row Proper (offset + 1) text pieces := by
  generalize whole : character :: text = start at row
  cases row with
  | done none =>
      rw [← whole, afterBlanks_blank blank] at none
      exact .done none
  | @next _ gap kind piece rest pieces ignored here more =>
      cases ignored with
      | nil =>
          rcases here.1.head_solid with ⟨first, others, rfl, solid⟩
          cases whole
          rw [isSolid_iff, blank] at solid
          cases solid.1
      | @blank _ gap _ ignored =>
          cases whole
          have shift : offset + (character :: gap).length = offset + 1 + gap.length := by
            rw [List.length_cons]
            omega
          rw [shift] at more ⊢
          exact .next ignored here more
      | comment =>
          cases whole
          cases blank

theorem of_blanks {blanks : List Char} (blank : ∀ character ∈ blanks, isBlank character)
    (row : Row Proper offset (blanks ++ text) pieces) :
    Row Proper (offset + blanks.length) text pieces := by
  induction blanks generalizing offset with
  | nil => exact row
  | cons character blanks ih =>
      have next := ih (fun _ member => blank _ (List.mem_cons_of_mem _ member))
        (row.of_blank (blank character List.mem_cons_self))
      rw [List.length_cons, Nat.add_comm blanks.length, ← Nat.add_assoc]
      exact next

/-- The first piece of a row begins within the first characters of the text. -/
def StartsWithin (bound offset : Nat) (text : List Char) (pieces : List Piece) : Prop :=
  ∃ gap kind piece rest more, Ignored gap ∧ gap.length < bound ∧ Proper kind piece rest ∧
    Row Proper (offset + gap.length + piece.length) rest more ∧
    text = gap ++ (piece ++ rest) ∧ pieces = ⟨kind, offset + gap.length, piece⟩ :: more

theorem done_or_starts (row : Row Proper offset text pieces) :
    pieces = [] ∧ grammar.afterBlanks text = [] ∨ StartsWithin text.length offset text pieces := by
  cases row with
  | done blank => exact Or.inl ⟨rfl, blank⟩
  | @next _ gap kind piece rest more ignored here row =>
      have some := List.length_pos_iff.mpr here.1.ne_nil
      refine Or.inr ⟨gap, kind, piece, rest, more, ignored, ?_, here, row, rfl, rfl⟩
      simp only [List.length_append]
      omega

/-- A boundary before which no piece begins cuts the blanks before the first piece in two. -/
theorem cut {front : List Char} {depth : Nat} (row : Row Proper offset (front ++ text) pieces)
    (walk : Walk 0 (front ++ text) depth text)
    (next : ∃ first ∈ text.head?, isLineEnd first = false) :
    StartsWithin front.length offset (front ++ text) pieces ∨
      Ignored front ∧ Row Proper (offset + front.length) text pieces := by
  rcases next with ⟨first, head, inside⟩
  have heads : ∀ character ∈ text.head?, isLineEnd character = false := by
    intro character other
    rw [Option.mem_unique other head]
    exact inside
  generalize whole : front ++ text = start at row walk
  cases row with
  | done blank =>
      right
      rcases afterBlanks_cases start with ⟨_, _, _, _, _, _, after⟩ | ⟨_, gap, rest, rfl, ignored, ends⟩
      · rw [blank] at after
        cases after
      · rcases Nat.lt_or_ge text.length rest.length with longer | shorter
        · -- The boundary would lie inside of the comment with which the text ends.
          rcases ends with rfl | ⟨body, within, rfl⟩
          · cases longer
          · have comment : Walk 0 ('#' :: (body ++ [])) depth text := by
              rw [List.append_nil]
              exact (ignored.walk 0 _).linear walk (Nat.le_of_lt longer)
            have none := comment.of_comment within (by simp)
              (by rw [List.append_nil]; exact Nat.le_of_lt_succ longer)
            rw [List.suffix_nil.mp none.suffix] at head
            cases head
        · rcases ignored.split_of_walk walk shorter heads with ⟨before, after, rfl, rfl, one, other⟩
          rw [List.append_assoc] at whole
          rw [List.append_cancel_right whole]
          refine ⟨one, .done ?_⟩
          rw [other.afterBlanks_append]
          rcases ends with rfl | unended
          · rfl
          · exact unended.afterBlanks_eq
  | @next _ gap kind piece rest more ignored here row =>
      -- The first piece begins before the boundary, or the boundary lies in the blanks before it.
      rcases Nat.lt_or_ge gap.length front.length with within | beyond
      · exact Or.inl ⟨gap, kind, piece, rest, more, ignored, within, here, row, rfl, rfl⟩
      · have lengths := congrArg List.length whole
        simp only [List.length_append] at lengths
        have shorter : (piece ++ rest).length ≤ text.length := by
          rw [List.length_append]
          omega
        rcases ignored.split_of_walk walk shorter heads with ⟨before, after, rfl, rfl, one, other⟩
        rw [List.append_assoc] at whole
        rw [List.append_cancel_right whole]
        have shift : offset + (before ++ after).length = offset + before.length + after.length := by
          rw [List.length_append, Nat.add_assoc]
        rw [shift] at row ⊢
        exact Or.inr ⟨one, .next other here row⟩

end Row

/-! ## Sections under a piece -/

theorem blanked_append (first second : List Char) :
    blanked (first ++ second) = blanked first ++ blanked second := List.map_append

theorem flatMap_kept_of_ne {kind : Kind} {parts : List Section}
    (foreign : ∀ part ∈ parts, part.kind ≠ kind) :
    parts.flatMap (Section.kept kind) = blanked (parts.flatMap Section.text) := by
  induction parts with
  | nil => rfl
  | cons part parts ih =>
      rw [List.flatMap_cons, List.flatMap_cons, Section.kept_foreign (foreign part List.mem_cons_self),
        ih fun other member => foreign other (List.mem_cons_of_mem _ member)]
      exact (blanked_append _ _).symm

/-- A part that begins with a solid character begins in a half with it, or with a blank. -/
theorem head_kept {kind : Kind} {part : Section} {first : Char} {more : List Char}
    (text : part.text = first :: more) (solid : isSolid first) :
    ∃ others, part.kept kind = (if part.kind = kind then first else ' ') :: others := by
  rw [Section.kept, text]
  split
  · exact ⟨more, rfl⟩
  · refine ⟨blanked more, ?_⟩
    simp [blanked, isLineEnd_of_isSolid solid]

/-- A half does not have a line end where a section begins. -/
theorem head_flatMap_kept {part : Section} {parts : List Section} (kind : Kind)
    (solid : ∃ first more, part.text = first :: more ∧ isSolid first) :
    ∃ first ∈ ((part :: parts).flatMap (Section.kept kind)).head?, isLineEnd first = false := by
  rcases solid with ⟨first, more, text, solid⟩
  rcases head_kept text solid with ⟨others, kept⟩
  rw [List.flatMap_cons, kept]
  refine ⟨_, rfl, ?_⟩
  split
  · exact isLineEnd_of_isSolid solid
  · rfl

/-- A piece that stands in the text as in its half lies in sections of its own kind. -/
theorem exists_covered {kind : Kind} {parts : List Section} {front piece after : List Char}
    (solid : ∀ part ∈ parts, ∃ first more, part.text = first :: more ∧ isSolid first)
    (split : front ++ parts.flatMap (Section.kept kind) = piece ++ after)
    (whole : piece <+: front ++ parts.flatMap Section.text) :
    ∃ inside rest outside, parts = inside ++ outside ∧ (∀ part ∈ inside, part.kind = kind) ∧
      front ++ inside.flatMap Section.text = piece ++ rest ∧
      after = rest ++ outside.flatMap (Section.kept kind) := by
  induction parts generalizing front piece with
  | nil =>
      rw [List.flatMap_nil, List.append_nil] at split
      exact ⟨[], after, [], rfl, by simp, by simpa using split, by simp⟩
  | cons part parts ih =>
      rcases Nat.lt_or_ge front.length piece.length with longer | shorter
      · have lengths := congrArg List.length split
        simp only [List.length_append] at lengths
        rcases exists_middle split (by omega) with ⟨middle, rfl, more⟩
        rw [List.prefix_append_right_inj] at whole
        have here := solid part List.mem_cons_self
        by_cases own : part.kind = kind
        · rw [List.flatMap_cons, Section.kept_own own] at more
          rw [List.flatMap_cons] at whole
          rcases ih (fun other member => solid other (List.mem_cons_of_mem _ member)) more whole with
            ⟨inside, rest, outside, rfl, kinds, same, ends⟩
          refine ⟨part :: inside, rest, outside, rfl, ?_, ?_, ends⟩
          · intro other member
            rcases List.mem_cons.mp member with rfl | member
            · exact own
            · exact kinds other member
          · rw [List.flatMap_cons, List.append_assoc, same]
        · -- The blank in the place of the first character of the section is not in the text.
          rcases here with ⟨first, others, text, solid⟩
          rcases head_kept text solid with ⟨blanks, kept⟩
          rw [List.flatMap_cons, kept, if_neg own] at more
          rw [List.flatMap_cons, text] at whole
          cases middle with
          | nil =>
              rw [List.append_nil] at longer
              exact absurd longer (Nat.lt_irrefl _)
          | cons character middle =>
              injection more with same
              obtain ⟨rfl, _⟩ := List.cons_prefix_cons.mp whole
              rw [← same] at solid
              cases solid
      · -- The piece ends before the section begins.
        have lengths := congrArg List.length split
        simp only [List.length_append] at lengths
        rcases exists_middle split.symm (by omega) with ⟨middle, rfl, rfl⟩
        exact ⟨[], middle, part :: parts, rfl, by simp, by simp, rfl⟩

/-- A piece lies in what is left of a section and in the sections after it, all of one kind. -/
structure Covers (head : Section) (inside : List Section) (gap piece after : List Char) : Prop where
  own : ∀ part ∈ inside, part.kind = head.kind
  text : (head :: inside).flatMap Section.text = gap ++ (piece ++ after)

namespace Covers

variable {head : Section} {inside : List Section} {gap piece after : List Char}

theorem text_append (covers : Covers head inside gap piece after) (outside : List Section) :
    (head :: (inside ++ outside)).flatMap Section.text =
      gap ++ (piece ++ (after ++ outside.flatMap Section.text)) := by
  rw [← List.cons_append, List.flatMap_append, covers.text]
  simp only [List.append_assoc]

/-- The other half is blank up to the end of the piece. -/
theorem kept_foreign (covers : Covers head inside gap piece after) {outside : List Section}
    {other : Kind} (foreign : other ≠ head.kind) :
    (head :: (inside ++ outside)).flatMap (Section.kept other) =
      blanked (gap ++ piece) ++
        (Section.mk head.kind after :: outside).flatMap (Section.kept other) := by
  have kinds : ∀ part ∈ head :: inside, part.kind ≠ other := by
    intro part member same
    rcases List.mem_cons.mp member with rfl | member
    · exact foreign same.symm
    · exact foreign (same.symm.trans (covers.own part member))
  have rest : (Section.mk head.kind after).kept other = blanked after :=
    Section.kept_foreign (Ne.symm foreign)
  rw [← List.cons_append, List.flatMap_append, flatMap_kept_of_ne kinds, covers.text,
    ← List.append_assoc, blanked_append, List.append_assoc, List.flatMap_cons, rest]

end Covers

/-! ## One place of both halves -/

/--
The end of a text from an offset on, where both halves are between two pieces: what is left of
the section that is being read, the sections after it, and the pieces of both halves.
-/
structure Joint (whole : List Char) (offset : Nat) (head : Section) (parts : List Section)
    (pieces : Kind → List Piece) : Prop where
  rest : whole.drop offset = (head :: parts).flatMap Section.text
  solid : ∀ part ∈ parts, ∃ first more, part.text = first :: more ∧ isSolid first
  rows : ∀ kind, Row Proper offset ((head :: parts).flatMap (Section.kept kind)) (pieces kind)
  walks : ∀ kind before after, parts = before ++ after → after ≠ [] →
    ∃ depth, Walk 0 ((head :: parts).flatMap (Section.kept kind)) depth
      (after.flatMap (Section.kept kind))
  stands : ∀ kind, ∀ piece ∈ pieces kind, piece.text <+: whole.drop piece.offset

namespace Joint

variable {whole : List Char} {offset : Nat} {head part : Section} {parts : List Section}
  {pieces : Kind → List Piece}

theorem walk_next (joint : Joint whole offset head (part :: parts) pieces) (kind : Kind) :
    ∃ depth, Walk 0 (head.kept kind ++ (part :: parts).flatMap (Section.kept kind)) depth
      ((part :: parts).flatMap (Section.kept kind)) :=
  joint.walks kind [] (part :: parts) rfl (by simp)

theorem ignored_kept (kind : Kind) (blank : Ignored head.text) : Ignored (head.kept kind) := by
  rw [Section.kept]
  split
  · exact blank
  · exact .of_blanks fun _ => isBlank_of_mem_blanked

/-- Where no piece begins in what is left of a section, the next section begins the same way. -/
theorem next_section (joint : Joint whole offset head (part :: parts) pieces)
    (blank : Ignored head.text)
    (row : Row Proper (offset + head.text.length) ((part :: parts).flatMap (Section.kept head.kind))
      (pieces head.kind)) :
    Joint whole (offset + head.text.length) part parts pieces where
  rest := by
    rw [← List.drop_drop, joint.rest, List.flatMap_cons, List.drop_left]
  solid := fun other member => joint.solid other (List.mem_cons_of_mem _ member)
  rows := by
    intro kind
    by_cases own : head.kind = kind
    · rw [← own]
      exact row
    · have whole := joint.rows kind
      rw [List.flatMap_cons, Section.kept_foreign own] at whole
      have next := whole.of_blanks fun _ => isBlank_of_mem_blanked
      rw [length_blanked] at next
      exact next
  walks := by
    rintro kind before after rfl some
    rcases joint.walks kind (part :: before) after rfl some with ⟨depth, walk⟩
    refine ⟨depth, ((ignored_kept kind blank).walk 0 _).linear walk ?_⟩
    simp only [List.flatMap_cons, List.flatMap_append, List.length_append]
    omega
  stands := joint.stands

/-- The pieces that are left of both halves after the first one of a half. -/
def left (pieces : Kind → List Piece) (kind : Kind) (more : List Piece) : Kind → List Piece :=
  fun other => if other = kind then more else pieces other

/-- The piece of a half that begins in what is left of a section lies in sections of its kind. -/
theorem exists_covers (joint : Joint whole offset head parts pieces) {gap piece rest : List Char}
    {kind : Kind} {more : List Piece} (within : gap.length < head.text.length)
    (split : (head :: parts).flatMap (Section.kept head.kind) = gap ++ (piece ++ rest))
    (first : pieces head.kind = ⟨kind, offset + gap.length, piece⟩ :: more) :
    ∃ inside after outside, parts = inside ++ outside ∧ Covers head inside gap piece after ∧
      rest = (Section.mk head.kind after :: outside).flatMap (Section.kept head.kind) := by
  have starts := joint.stands head.kind _ (first ▸ List.mem_cons_self)
  rw [List.flatMap_cons, Section.kept_own rfl] at split
  have lengths := congrArg List.length split
  simp only [List.length_append] at lengths
  rcases exists_middle split.symm (by simp only [List.length_append]; omega) with ⟨front, text, others⟩
  dsimp only at starts
  rw [← List.drop_drop, joint.rest, List.flatMap_cons, text, List.append_assoc, List.drop_left] at starts
  rcases exists_covered joint.solid others.symm starts with
    ⟨inside, after, outside, rfl, own, covered, rfl⟩
  refine ⟨inside, after, outside, rfl, ⟨own, ?_⟩, ?_⟩
  · rw [List.flatMap_cons, text, List.append_assoc, covered]
  · have rest : (Section.mk head.kind after).kept head.kind = after := if_pos rfl
    rw [List.flatMap_cons, rest]

/-- The piece of a half that begins in what is left of a section is a piece of the text. -/
theorem next_piece (joint : Joint whole offset head parts pieces) {gap piece rest : List Char}
    {kind : Kind} {more : List Piece} (ignored : Ignored gap) (within : gap.length < head.text.length)
    (here : Proper kind piece rest)
    (row : Row Proper (offset + gap.length + piece.length) rest more)
    (split : (head :: parts).flatMap (Section.kept head.kind) = gap ++ (piece ++ rest))
    (first : pieces head.kind = ⟨kind, offset + gap.length, piece⟩ :: more) :
    ∃ after parts', parts'.length ≤ parts.length ∧
      (head :: parts).flatMap Section.text = gap ++ (piece ++ (after ++ parts'.flatMap Section.text)) ∧
      Joint whole (offset + gap.length + piece.length) ⟨head.kind, after⟩ parts'
        (left pieces head.kind more) := by
  rcases joint.exists_covers within split first with ⟨inside, after, outside, rfl, covers, rfl⟩
  have source := covers.text_append outside
  refine ⟨after, outside, by simp, source, ?_⟩
  constructor
  case rest =>
    rw [Nat.add_assoc, ← List.length_append, ← List.drop_drop, joint.rest, source, ← List.append_assoc,
      List.drop_left]
    rfl
  case solid => exact fun part member => joint.solid part (List.mem_append_right _ member)
  case rows =>
    intro other
    unfold left
    split
    · next same =>
        subst same
        exact row
    · next foreign =>
        have before := joint.rows other
        rw [covers.kept_foreign foreign] at before
        have next := before.of_blanks fun _ => isBlank_of_mem_blanked
        rw [length_blanked, List.length_append, ← Nat.add_assoc] at next
        exact next
  case walks =>
    intro other before last same some
    rcases joint.walks other (inside ++ before) last (by rw [same, List.append_assoc]) some with
      ⟨depth, walk⟩
    have shorter : (last.flatMap (Section.kept other)).length ≤
        ((Section.mk head.kind after :: outside).flatMap (Section.kept other)).length := by
      rw [same]
      simp only [List.flatMap_cons, List.flatMap_append, List.length_append]
      omega
    by_cases own : other = head.kind
    · subst own
      rw [split] at walk
      exact ⟨depth, ((ignored.walk 0 _).trans here.1.walk).linear walk shorter⟩
    · rw [covers.kept_foreign own] at walk
      have blanks : Ignored (blanked (gap ++ piece)) := .of_blanks fun _ => isBlank_of_mem_blanked
      exact ⟨depth, (blanks.walk 0 _).linear walk shorter⟩
  case stands =>
    intro other later member
    unfold left at member
    split at member
    · exact joint.stands head.kind later (first ▸ List.mem_cons_of_mem _ member)
    · exact joint.stands other later member

theorem perm_left {kind : Kind} {piece : Piece} {more : List Piece} (first : pieces kind = piece :: more) :
    (piece :: (left pieces kind more .executable ++ left pieces kind more .typeSystem)).Perm
      (pieces .executable ++ pieces .typeSystem) := by
  cases kind with
  | executable =>
      rw [first]
      exact .refl _
  | typeSystem =>
      rw [first]
      exact List.perm_middle.symm

theorem pieces_eq_nil (joint : Joint whole offset head [] pieces)
    (none : pieces head.kind = []) (kind : Kind) : pieces kind = [] := by
  by_cases own : head.kind = kind
  · rw [← own]
    exact none
  · have row := joint.rows kind
    rw [List.flatMap_cons, Section.kept_foreign own] at row
    have rest := row.of_blanks fun _ => isBlank_of_mem_blanked
    exact (rest.imp fun _ _ _ here => here.1).eq_nil

/-- Takes the pieces of both halves in the order of the text. -/
theorem exists_division (joint : Joint whole offset head parts pieces) :
    ∃ all, all.Perm (pieces .executable ++ pieces .typeSystem) ∧
      Division offset ((head :: parts).flatMap Section.text) all := by
  generalize size_eq : ((head :: parts).flatMap Section.text).length + parts.length = size
  induction size using Nat.strongRecOn generalizing offset head parts pieces with
  | ind size ih =>
      have row := joint.rows head.kind
      -- A piece is taken before what follows it, which is shorter.
      have taken : Row.StartsWithin head.text.length offset
          ((head :: parts).flatMap (Section.kept head.kind)) (pieces head.kind) →
          ∃ all, all.Perm (pieces .executable ++ pieces .typeSystem) ∧
            Division offset ((head :: parts).flatMap Section.text) all := by
        rintro ⟨gap, kind, piece, rest, more, ignored, within, here, row, split, first⟩
        rcases joint.next_piece ignored within here row split first with
          ⟨after, parts', fewer, source, next⟩
        have some := List.length_pos_iff.mpr here.1.ne_nil
        have lengths := congrArg List.length source
        simp only [List.flatMap_cons, List.length_append] at lengths size_eq
        have shorter : ((Section.mk head.kind after :: parts').flatMap Section.text).length +
            parts'.length < size := by
          simp only [List.flatMap_cons, List.length_append]
          omega
        rcases ih _ shorter next rfl with ⟨all, perm, division⟩
        refine ⟨⟨kind, offset + gap.length, piece⟩ :: all, ?_, ?_⟩
        · exact (perm.cons _).trans (perm_left first)
        · rw [source]
          exact .next ignored here.2 division
      cases parts with
      | nil =>
          have text : [head].flatMap (Section.kept head.kind) = head.text := by
            rw [List.flatMap_singleton, Section.kept_own rfl]
          rw [text] at row taken
          rcases row.done_or_starts with ⟨none, blank⟩ | starts
          · refine ⟨[], ?_, .done ?_⟩
            · rw [joint.pieces_eq_nil none, joint.pieces_eq_nil none]
              exact .nil
            · rw [List.flatMap_singleton]
              exact blank
          · exact taken starts
      | cons part parts =>
          rcases joint.walk_next head.kind with ⟨depth, walk⟩
          have text : head.kept head.kind = head.text := if_pos rfl
          rw [List.flatMap_cons, text] at row
          rw [text] at walk
          -- The next piece begins in what is left of the section, or all of that is ignored.
          rcases row.cut walk (head_flatMap_kept _ (joint.solid part List.mem_cons_self)) with starts | ⟨blank, row⟩
          · apply taken
            rw [List.flatMap_cons, text]
            exact starts
          · have next := joint.next_section blank row
            simp only [List.flatMap_cons, List.length_append, List.length_cons] at size_eq
            have smaller : ((part :: parts).flatMap Section.text).length + parts.length < size := by
              simp only [List.flatMap_cons, List.length_append]
              omega
            rcases ih _ smaller next rfl with ⟨all, perm, division⟩
            exact ⟨all, perm, .of_gap blank division⟩

end Joint

end PreviewLint
