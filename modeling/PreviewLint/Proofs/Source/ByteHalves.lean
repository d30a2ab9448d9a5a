import PreviewLint.Proofs.Source.ByteScan
import PreviewLint.Proofs.Source.Places

/-!
# The halves by byte offsets

The scanner takes down where its segments begin by offsets into the bytes of a text, and the
halves that it makes have characters. A character belongs to the segment that covers its first
byte. This file says for every text that is split what its halves hold, with nothing but the
offsets of the segments: the number of bytes before a character grows with the number of
characters, so that the segment around the first byte is the section around the character.
-/

namespace PreviewLint.ByteScan

open Outline Bytes

/-- The offset of the first byte of a character. -/
def offsetAt (text : List Char) (index : Nat) : Nat := (encode (text.take index)).length

/-- An offset lies in a segment, which is given by its number and ends where the next one begins. -/
structure Covers (text : String) (segments : List Segment) (number : Nat) (segment : Segment)
    (offset : Nat) : Prop where
  listed : segments[number]? = some segment
  starts : segment.start ≤ offset
  ends : offset < (segments[number + 1]?.map Segment.start).getD (bytesOf text).length

/-- Every character is in its place in a half, kept or blanked as its segment says. -/
structure InPlace (text : String) (segments : List Segment) (kind : Kind) (half : List Char) :
    Prop where
  length_eq : half.length = text.toList.length
  leading : ∀ index, offsetAt text.toList index <
      (segments[0]?.map Segment.start).getD (bytesOf text).length →
    half[index]? = text.toList[index]?
  kept : ∀ number segment index,
    Covers text segments number segment (offsetAt text.toList index) →
      half[index]? = if segment.kind = kind then text.toList[index]?
        else text.toList[index]?.map blankFor
  position : ∀ index, Position.following (half.take index) =
      Position.following (text.toList.take index) ∧
    Position.ofFailure (half.take index) = Position.ofFailure (text.toList.take index)

/-! ## Offsets grow with indices -/

section Offsets

variable {text : List Char} {first second : Nat}

theorem offsetAt_mono (before : first ≤ second) : offsetAt text first ≤ offsetAt text second := by
  obtain ⟨between, together⟩ : text.take first <+: text.take second :=
    List.take_prefix_take_left before
  rw [offsetAt, offsetAt, ← together, encode_append, List.length_append]
  exact Nat.le_add_right _ _

theorem offsetAt_lt (before : first < second) (inside : second ≤ text.length) :
    offsetAt text first < offsetAt text second := by
  have found : text[first]? = some text[first] := List.getElem?_eq_getElem (by omega)
  have next : offsetAt text (first + 1) =
      offsetAt text first + (encode [text[first]]).length := by
    rw [offsetAt, offsetAt, List.take_add_one, found, encode_append, List.length_append]
    rfl
  have long : 0 < (encode [text[first]]).length := encode_pos (List.cons_ne_nil _ _)
  have later : offsetAt text (first + 1) ≤ offsetAt text second := offsetAt_mono before
  omega

theorem offsetAt_le_iff (inside : first ≤ text.length) :
    offsetAt text first ≤ offsetAt text second ↔ first ≤ second := by
  constructor
  · intro before
    by_contra after
    exact absurd (offsetAt_lt (Nat.lt_of_not_le after) inside) (Nat.not_lt.mpr before)
  · exact offsetAt_mono

theorem offsetAt_lt_iff (inside : second ≤ text.length) :
    offsetAt text first < offsetAt text second ↔ first < second := by
  rw [← Nat.not_le, ← Nat.not_le, offsetAt_le_iff inside]

end Offsets

/-! ## Segments and sections -/

theorem getElem?_segmentsFrom (index number : Nat) (parts : List Section) :
    (segmentsFrom index parts)[number]? = parts[number]?.map fun part =>
      ⟨index + (encode ((parts.take number).flatMap Section.text)).length, part.kind⟩ := by
  induction parts generalizing index number with
  | nil => rfl
  | cons part parts ih =>
      cases number with
      | zero => rfl
      | succ number =>
          rw [segmentsFrom, List.getElem?_cons_succ, List.getElem?_cons_succ, ih,
            List.take_succ_cons, List.flatMap_cons, encode_append, List.length_append, Nat.add_assoc]

variable {text : String}

/-- The segments that the scanner finds. -/
def segmentsOf (text : String) : List Segment :=
  segmentsFrom (encode (ofText text.toList).leading).length (ofText text.toList).sections

/-- What is before a section: the leading text and the sections before it. -/
theorem exists_behind (text : List Char) (number : Nat) :
    ∃ behind, text = (ofText text).leading ++
      ((ofText text).sections.take number).flatMap Section.text ++ behind := by
  refine ⟨((ofText text).sections.drop number).flatMap Section.text, ?_⟩
  rw [List.append_assoc, ← List.flatMap_append, List.take_append_drop, text_ofText]

theorem take_startOf (text : List Char) (number : Nat) :
    text.take ((ofText text).startOf number) =
      (ofText text).leading ++ ((ofText text).sections.take number).flatMap Section.text := by
  obtain ⟨behind, whole⟩ := exists_behind text number
  refine (congrArg (List.take _) whole).trans (List.take_left' ?_)
  rw [List.length_append, startOf]

theorem startOf_le_length (text : List Char) (number : Nat) :
    (ofText text).startOf number ≤ text.length := by
  obtain ⟨behind, whole⟩ := exists_behind text number
  have length := congrArg List.length whole
  rw [List.length_append, List.length_append, ← startOf] at length
  omega

theorem getElem?_segmentsOf (text : String) (number : Nat) :
    (segmentsOf text)[number]? = (ofText text.toList).sections[number]?.map fun part =>
      ⟨offsetAt text.toList ((ofText text.toList).startOf number), part.kind⟩ := by
  rw [segmentsOf, getElem?_segmentsFrom, offsetAt, take_startOf, encode_append, List.length_append]

/-- A segment ends where the next section begins, or with the text. -/
theorem end_segmentsOf (text : String) (number : Nat) :
    ((segmentsOf text)[number]?.map Segment.start).getD (bytesOf text).length =
      offsetAt text.toList ((ofText text.toList).startOf number) := by
  rw [getElem?_segmentsOf]
  cases found : (ofText text.toList).sections[number]? with
  | some part => rfl
  | none =>
      have whole : (ofText text.toList).sections.take number = (ofText text.toList).sections :=
        List.take_of_length_le (List.getElem?_eq_none_iff.mp found)
      rw [offsetAt, take_startOf, whole, text_ofText, bytesOf_eq]
      rfl

/-- The segment around the first byte of a character is the section around the character. -/
theorem Covers.encloses {number index : Nat} {segment : Segment}
    (covers : Covers text (segmentsOf text) number segment (offsetAt text.toList index)) :
    ∃ part, part.kind = segment.kind ∧ (ofText text.toList).Encloses number part index := by
  have listed := covers.listed
  have ends := covers.ends
  rw [getElem?_segmentsOf] at listed
  obtain ⟨part, found, rfl⟩ := Option.map_eq_some_iff.mp listed
  rw [end_segmentsOf, offsetAt_lt_iff (startOf_le_length _ _), startOf_succ found] at ends
  exact ⟨part, rfl, found, (offsetAt_le_iff (startOf_le_length _ _)).mp covers.starts, ends⟩

theorem covers_of_encloses {number index : Nat} {part : Section}
    (encloses : (ofText text.toList).Encloses number part index) :
    Covers text (segmentsOf text) number
      ⟨offsetAt text.toList ((ofText text.toList).startOf number), part.kind⟩
      (offsetAt text.toList index) where
  listed := by
    rw [getElem?_segmentsOf, encloses.listed]
    rfl
  starts := offsetAt_mono encloses.starts
  ends := by
    rw [end_segmentsOf, offsetAt_lt_iff (startOf_le_length _ _), startOf_succ encloses.listed]
    exact encloses.ends

/-! ## The halves -/

theorem inPlace_half (text : String) (kind : Kind) :
    InPlace text (segmentsOf text) kind ((ofText text.toList).half kind) where
  length_eq := (kept_half_ofText text.toList kind).length_eq
  leading := by
    intro index before
    rw [end_segmentsOf, offsetAt_lt_iff (startOf_le_length _ _)] at before
    exact getElem?_half_of_lt before kind
  kept := by
    intro number segment index covers
    obtain ⟨part, same, encloses⟩ := covers.encloses
    rw [← same]
    exact getElem?_half encloses kind
  position := by
    intro index
    have same := List.forall₂_take index (kept_half_ofText text.toList kind)
    exact ⟨Position.following_of_kept same, Position.ofFailure_of_kept same⟩

/--
A text is split if the scanner finds segments of both kinds in it. Then each half has as many
characters as the text, and every character is in its place: before the first segment in both
halves, and from there on in exactly one segment, whose kind has the half that keeps it. The other
half has a line end or a blank there.
-/
theorem split?_in_place {executable typeSystem : List Char}
    (splits : split? text = some (some (executable, typeSystem))) :
    ∃ segments, scan? text = some segments ∧
      (∀ kind, ∃ segment ∈ segments, segment.kind = kind) ∧
      InPlace text segments .executable executable ∧
      InPlace text segments .typeSystem typeSystem ∧
      ∀ index < text.toList.length,
        (segments[0]?.map Segment.start).getD (bytesOf text).length ≤
          offsetAt text.toList index →
        ∃! number, ∃ segment, Covers text segments number segment (offsetAt text.toList index) := by
  rw [split?_eq] at splits
  simp only [Option.some.injEq] at splits
  split at splits
  · next both =>
      rw [Bool.and_eq_true_iff] at both
      cases splits
      refine ⟨segmentsOf text, scan?_eq text, ?_, inPlace_half text _, inPlace_half text _, ?_⟩
      · intro kind
        have found : (segmentsOf text).any (·.kind == kind) := by
          rw [segmentsOf, any_segmentsFrom]
          cases kind with
          | executable => exact both.1
          | typeSystem => exact both.2
        simpa using found
      · intro index inside after
        rw [end_segmentsOf, offsetAt_le_iff (startOf_le_length _ _)] at after
        have whole : index < (ofText text.toList).leading.length +
            ((ofText text.toList).sections.flatMap Section.text).length := by
          rw [← List.length_append, text_ofText]
          exact inside
        obtain ⟨number, part, encloses⟩ := exists_encloses after whole
        refine ⟨number, ⟨_, covers_of_encloses encloses⟩, ?_⟩
        rintro other ⟨segment, covers⟩
        obtain ⟨part', _, encloses'⟩ := covers.encloses
        exact encloses'.unique encloses
  · cases splits

end PreviewLint.ByteScan
