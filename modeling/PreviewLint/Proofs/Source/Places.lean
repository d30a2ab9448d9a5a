import PreviewLint.Proofs.Source.Lexemes

/-!
# Every character in its place

The sections of an outline follow each other without a gap, from the end of the leading text
to the end of the text. So every character after the leading text belongs to exactly one
section, and its place says which one.

The halves are what is read of a text with sections of both kinds. A half keeps a character of
a section of its kind, and has a line end or a blank in the place of any other. Both ways of
counting lines and columns look at nothing but the line ends before a place and the number of
characters since the last of them, and give every place of a half the position that it has in
the text.
-/

namespace PreviewLint

open GraphQL

namespace Outline

variable {outline : Outline} {index number : Nat} {part : Section}

/-- Where a section begins: after the leading text and the sections before it. -/
def startOf (outline : Outline) (number : Nat) : Nat :=
  outline.leading.length + ((outline.sections.take number).flatMap Section.text).length

/-- A place that lies in a section, which is given by its number. -/
structure Encloses (outline : Outline) (number : Nat) (part : Section) (index : Nat) : Prop where
  listed : outline.sections[number]? = some part
  starts : outline.startOf number ≤ index
  ends : index < outline.startOf number + part.text.length

/-! ## Sections follow each other -/

theorem take_succ_of_listed {parts : List Section} (listed : parts[number]? = some part) :
    parts.take (number + 1) = parts.take number ++ [part] := by
  rw [List.take_add_one, listed, Option.toList_some]

theorem split_of_listed {parts : List Section} (listed : parts[number]? = some part) :
    parts = parts.take number ++ part :: parts.drop (number + 1) := by
  rw [← List.singleton_append, ← List.append_assoc, ← take_succ_of_listed listed,
    List.take_append_drop]

theorem startOf_succ (listed : outline.sections[number]? = some part) :
    outline.startOf (number + 1) = outline.startOf number + part.text.length := by
  rw [startOf, startOf, take_succ_of_listed listed, List.flatMap_append, List.flatMap_singleton,
    List.length_append, Nat.add_assoc]

theorem startOf_mono {other : Nat} (before : number ≤ other) :
    outline.startOf number ≤ outline.startOf other := by
  have front : outline.sections.take number <+: outline.sections.take other :=
    List.take_prefix_take_left before
  rcases front with ⟨between, together⟩
  rw [startOf, startOf, ← together, List.flatMap_append, List.length_append]
  omega

/-- A place lies in one section at most. -/
theorem Encloses.unique {other : Nat} {part' : Section}
    (encloses : outline.Encloses number part index)
    (encloses' : outline.Encloses other part' index) : number = other := by
  have starts := encloses.starts
  have starts' := encloses'.starts
  have ends := encloses.ends
  have ends' := encloses'.ends
  rw [← startOf_succ encloses.listed] at ends
  rw [← startOf_succ encloses'.listed] at ends'
  rcases Nat.lt_trichotomy number other with before | same | after
  · have later : outline.startOf (number + 1) ≤ outline.startOf other := startOf_mono before
    omega
  · exact same
  · have later : outline.startOf (other + 1) ≤ outline.startOf number := startOf_mono after
    omega

/-- Before some section begins, a place after the leading text lies in one of those before it. -/
theorem exists_between (after : outline.leading.length ≤ index)
    (before : index < outline.startOf number) :
    ∃ earlier < number,
      outline.startOf earlier ≤ index ∧ index < outline.startOf (earlier + 1) := by
  induction number with
  | zero =>
      have none : outline.startOf 0 = outline.leading.length := rfl
      omega
  | succ number ih =>
      rcases Nat.lt_or_ge index (outline.startOf number) with sooner | begun
      · rcases ih sooner with ⟨earlier, smaller, between⟩
        exact ⟨earlier, Nat.lt_succ_of_lt smaller, between⟩
      · exact ⟨number, Nat.lt_succ_self number, begun, before⟩

/-- Every place after the leading text lies in a section. -/
theorem exists_encloses (after : outline.leading.length ≤ index)
    (inside : index < outline.leading.length + (outline.sections.flatMap Section.text).length) :
    ∃ number part, outline.Encloses number part index := by
  have whole : index < outline.startOf outline.sections.length := by
    rw [startOf, List.take_length]
    exact inside
  rcases exists_between after whole with ⟨number, smaller, starts, ends⟩
  have listed := List.getElem?_eq_getElem smaller
  rw [startOf_succ listed] at ends
  exact ⟨number, _, listed, starts, ends⟩

/-! ## What the halves hold -/

/--
A text that shows something of every section in its place, and the leading text before them,
shows at each place what is shown there of the section around it.
-/
theorem getElem?_shown {shown : Section → List Char}
    (lengths : ∀ part, (shown part).length = part.text.length)
    (encloses : outline.Encloses number part index) :
    (outline.leading ++ outline.sections.flatMap shown)[index]? =
      (shown part)[index - outline.startOf number]? := by
  have starts := encloses.starts
  have ends := encloses.ends
  have front : (outline.leading ++ (outline.sections.take number).flatMap shown).length =
      outline.startOf number := by
    simp only [List.length_append, List.length_flatMap, lengths, startOf]
  rw [split_of_listed encloses.listed, List.flatMap_append, List.flatMap_cons,
    ← List.append_assoc, List.getElem?_append_right (by omega), front,
    List.getElem?_append_left]
  rw [lengths]
  omega

theorem length_kept (kind : Kind) (part : Section) :
    (part.kept kind).length = part.text.length := by
  rw [Section.kept]
  split
  · rfl
  · exact length_blanked part.text

/-- What a half has in the place of a character that it does not keep. -/
def blankFor (character : Char) : Char :=
  if character = '\n' ∨ character = '\r' then character else ' '

theorem blanked_eq_map (text : List Char) : blanked text = text.map blankFor := by
  rw [blanked]
  apply List.map_congr_left
  intro character _
  simp [blankFor, isLineEnd]

/-- A half keeps the characters of the sections of its kind, and blanks those of the others. -/
theorem getElem?_half {text : List Char} (encloses : (ofText text).Encloses number part index)
    (kind : Kind) :
    ((ofText text).half kind)[index]? =
      if part.kind = kind then text[index]? else text[index]?.map blankFor := by
  have original : text[index]? = part.text[index - (ofText text).startOf number]? := by
    rw [← getElem?_shown (fun _ => rfl) encloses, text_ofText]
  have shown : ((ofText text).half kind)[index]? =
      (part.kept kind)[index - (ofText text).startOf number]? :=
    getElem?_shown (length_kept kind) encloses
  rw [shown, original, Section.kept]
  split
  · rfl
  · rw [blanked_eq_map, List.getElem?_map]

/-- Both halves begin with the leading text. -/
theorem getElem?_half_of_lt {text : List Char} (before : index < (ofText text).leading.length)
    (kind : Kind) : ((ofText text).half kind)[index]? = text[index]? := by
  have original : text[index]? = (ofText text).leading[index]? := by
    rw [← List.getElem?_append_left before, text_ofText]
  rw [original, half, List.getElem?_append_left before]

/-! ## Lines and columns -/

/-- A half has a line end where the text has it, and nowhere else. -/
theorem Kept.eq_iff {kept original ending : Char} (here : Kept kept original)
    (ends : isLineEnd ending) : kept = ending ↔ original = ending := by
  rcases here with rfl | ⟨inside, rfl⟩
  · exact Iff.rfl
  · constructor
    · rintro rfl
      cases ends
    · rintro rfl
      rw [inside] at ends
      cases ends

theorem head?_eq_iff_of_kept {kept text : List Char} (same : List.Forall₂ Kept kept text)
    {ending : Char} (ends : isLineEnd ending) :
    kept.head? = some ending ↔ text.head? = some ending := by
  cases same with
  | nil => exact Iff.rfl
  | cons here _ => simpa using here.eq_iff ends

end Outline

namespace Position

open Outline

theorem advanceLines_other (position : Position) {character : Char} {rest : List Char}
    (inside : character ≠ '\n') (single : character = '\r' → rest.head? ≠ some '\n') :
    advanceLines position (character :: rest) =
      advanceLines ⟨position.line, position.column + 1⟩ rest := by
  rw [advanceLines]
  · rintro more rfl rfl
    exact single rfl rfl
  · exact inside

/-- Positions of failures in a half are positions in the text. -/
theorem ofFailure_of_kept {kept text : List Char} (same : List.Forall₂ Kept kept text) :
    ofFailure kept = ofFailure text := by
  unfold ofFailure
  generalize start = position
  fun_induction advanceLines position text generalizing kept with
  | case1 position =>
      cases same
      rfl
  | case2 position rest ih =>
      cases same with
      | cons here more =>
          cases more with
          | cons next more =>
              rw [(here.eq_iff rfl).mpr rfl, (next.eq_iff rfl).mpr rfl, advanceLines, ih more]
  | case3 position rest ih =>
      cases same with
      | cons here more => rw [(here.eq_iff rfl).mpr rfl, advanceLines, ih more]
  | case4 position character rest pair feed ih =>
      cases same with
      | cons here more =>
          rw [advanceLines_other, ih more]
          · exact fun same => feed ((here.eq_iff rfl).mp same)
          · intro same follows
            rcases List.head?_eq_some_iff.mp ((head?_eq_iff_of_kept more rfl).mp follows) with
              ⟨others, rfl⟩
            exact pair others ((here.eq_iff rfl).mp same) rfl

end Position

namespace Outline

/--
Nothing is lost and nothing is moved in the halves of a text. Each has the length of the text.
Both hold the leading text. Every character after it lies in exactly one section, is kept by
the half of the kind of that section, and has a line end or a blank in its place in the other.
Every place has the position in a half that it has in the text, for nodes and for failures.
-/
theorem halves_in_place (text : List Char) :
    (∀ kind, ((ofText text).half kind).length = text.length) ∧
      (∀ index < (ofText text).leading.length, ∀ kind,
        ((ofText text).half kind)[index]? = text[index]?) ∧
      (∀ index, (ofText text).leading.length ≤ index → index < text.length →
        ∃! number, ∃ part, (ofText text).Encloses number part index) ∧
      (∀ number part index, (ofText text).Encloses number part index → ∀ kind,
        ((ofText text).half kind)[index]? =
          if part.kind = kind then text[index]? else text[index]?.map blankFor) ∧
      ∀ kind index,
        Position.following (((ofText text).half kind).take index) =
            Position.following (text.take index) ∧
          Position.ofFailure (((ofText text).half kind).take index) =
            Position.ofFailure (text.take index) := by
  refine ⟨?_, ?_, ?_, ?_, ?_⟩
  · exact fun kind => (kept_half_ofText text kind).length_eq
  · exact fun index before kind => getElem?_half_of_lt before kind
  · intro index after inside
    have whole : index < (ofText text).leading.length +
        ((ofText text).sections.flatMap Section.text).length := by
      rw [← List.length_append, text_ofText]
      exact inside
    rcases exists_encloses after whole with ⟨number, part, encloses⟩
    refine ⟨number, ⟨part, encloses⟩, ?_⟩
    rintro other ⟨_, encloses'⟩
    exact encloses'.unique encloses
  · exact fun number part index encloses kind => getElem?_half encloses kind
  · intro kind index
    have same := List.forall₂_take index (kept_half_ofText text kind)
    exact ⟨Position.following_of_kept same, Position.ofFailure_of_kept same⟩

end Outline

end PreviewLint
