import PreviewLint.Proofs.GraphQL.Boundaries
import PreviewLint.Proofs.GraphQL.Spans
import PreviewLint.Proofs.Source.Order

/-!
# Texts divided into definitions

A text of definitions is a row of pieces with blanks and comments around them. What is asked of
a piece is a parameter of the row: that it matches on its own, or that it is read from the text
that begins with it. In a text of definitions of one kind the two come to the same.
-/

namespace PreviewLint

open GraphQL Outline Peg

/-- A definition as it stands in a text. -/
structure Piece where
  kind : Kind
  offset : Nat
  text : List Char
  deriving DecidableEq, Repr

/--
A text that begins at an offset consists of pieces and of blanks and comments around them. The
condition on a piece is about its kind, its text and the text after it.
-/
inductive Row (holds : Kind → List Char → List Char → Prop) : Nat → List Char → List Piece → Prop
  | done {offset text} (blank : grammar.afterBlanks text = []) : Row holds offset text []
  | next {offset gap kind text rest pieces} (ignored : Ignored gap) (here : holds kind text rest)
      (more : Row holds (offset + gap.length + text.length) rest pieces) :
      Row holds offset (gap ++ (text ++ rest)) (⟨kind, offset + gap.length, text⟩ :: pieces)

/-- A text without blanks before it that matches the rule of its kind on its own. -/
def Matched (kind : Kind) (text : List Char) : Prop :=
  grammar.afterBlanks text = text ∧ grammar.rest? kind.definition text = some []

instance (kind : Kind) (text : List Char) : Decidable (Matched kind text) :=
  inferInstanceAs (Decidable (_ ∧ _))

/-- A text divides into pieces that match on their own. -/
abbrev Division : Nat → List Char → List Piece → Prop := Row fun kind text _ => Matched kind text

/-- A definition is read from `text ++ after`, and no more of `after` than blanks. -/
structure Taken (kind : Kind) (text after : List Char) : Prop where
  ne_nil : text ≠ []
  solid : grammar.afterBlanks (text ++ after) = text ++ after
  reads : ∃ rest, (rule kind.definition).Reads grammar .spaced (text ++ after) (some rest) ∧
    (rest = after ∨ rest = grammar.afterBlanks after)

theorem Taken.begins {kind : Kind} {text after : List Char} (taken : Taken kind text after) :
    ∃ word ∈ kind.beginnings, word.toList <+: text ++ after := by
  rcases taken.reads with ⟨rest, reads, _⟩
  exact Kind.begins taken.solid reads

/-- A definition is read from `text ++ after` up to the end of `text`. -/
def Extent (kind : Kind) (text after : List Char) : Prop :=
  ∃ front final, text = front ++ [final] ∧ Spans kind front final after

/-- A definition that is read from a text, and that also matches without what follows it. -/
def Proper (kind : Kind) (text after : List Char) : Prop := Extent kind text after ∧ Matched kind text

namespace Extent

variable {kind : Kind} {text after : List Char}

theorem ne_nil (extent : Extent kind text after) : text ≠ [] := by
  rcases extent with ⟨front, final, rfl, _⟩
  simp

theorem solid (extent : Extent kind text after) :
    grammar.afterBlanks (text ++ after) = text ++ after := by
  rcases extent with ⟨front, final, rfl, spans⟩
  rw [List.append_assoc]
  exact spans.solid

theorem taken (extent : Extent kind text after) : Taken kind text after where
  ne_nil := extent.ne_nil
  solid := extent.solid
  reads := by
    rcases extent with ⟨front, final, rfl, spans⟩
    rw [List.append_assoc]
    exact spans.reads

theorem walk (extent : Extent kind text after) : Walk 0 (text ++ after) 0 after := by
  rcases extent with ⟨front, final, rfl, spans⟩
  rw [List.append_assoc]
  rcases spans.unit with ⟨closes, walk⟩ | ⟨plain, walk⟩
  · exact walk.trans (.closing closes .refl)
  · exact walk.trans (.plain plain .refl)

theorem head_solid (extent : Extent kind text after) :
    ∃ first more, text = first :: more ∧ isSolid first := by
  cases text with
  | nil => exact absurd rfl extent.ne_nil
  | cons first more => exact ⟨first, more, rfl, isSolid_of_afterBlanks_eq extent.solid⟩

end Extent

namespace Row

variable {holds : Kind → List Char → List Char → Prop} {offset : Nat} {text : List Char}
  {pieces : List Piece}

theorem imp {other : Kind → List Char → List Char → Prop}
    (weaker : ∀ kind text rest, holds kind text rest → other kind text rest)
    (row : Row holds offset text pieces) : Row other offset text pieces := by
  induction row with
  | done blank => exact .done blank
  | next ignored here _ ih => exact .next ignored (weaker _ _ _ here) ih

theorem at_once {kind : Kind} {piece : List Char} (here : holds kind piece text)
    (row : Row holds (offset + piece.length) text pieces) :
    Row holds offset (piece ++ text) (⟨kind, offset, piece⟩ :: pieces) :=
  .next .nil here row

theorem of_gap {gap : List Char} (ignored : Ignored gap)
    (row : Row holds (offset + gap.length) text pieces) : Row holds offset (gap ++ text) pieces := by
  cases row with
  | done blank => exact .done (ignored.afterBlanks_append.trans blank)
  | @next _ more kind piece rest pieces ignored' here row =>
      have both : offset + gap.length + more.length = offset + (gap ++ more).length := by
        rw [List.length_append, Nat.add_assoc]
      rw [both] at row ⊢
      rw [← List.append_assoc]
      exact .next (ignored.append ignored') here row

theorem exists_rest (row : Row holds offset text pieces) :
    ∀ piece ∈ pieces, ∃ rest, holds piece.kind piece.text rest := by
  induction row with
  | done => simp
  | next _ here _ ih =>
      intro piece member
      rcases List.mem_cons.mp member with rfl | later
      · exact ⟨_, here⟩
      · exact ih piece later

/-- The pieces of a row stand in the text at their offsets. -/
theorem stands {whole : List Char} (row : Row holds offset text pieces)
    (rest : whole.drop offset = text) : ∀ piece ∈ pieces, piece.text <+: whole.drop piece.offset := by
  induction row with
  | done => simp
  | @next offset gap kind text after pieces _ _ _ ih =>
      have here : whole.drop (offset + gap.length) = text ++ after := by
        rw [← List.drop_drop, rest, List.drop_left]
      have there : whole.drop (offset + gap.length + text.length) = after := by
        rw [← List.drop_drop, here, List.drop_left]
      intro piece member
      rcases List.mem_cons.mp member with rfl | later
      · dsimp only
        rw [here]
        exact List.prefix_append text after
      · exact ih there piece later

theorem begins {piece : Piece} (row : Row Taken offset text (piece :: pieces)) :
    ∃ word ∈ piece.kind.beginnings, word.toList <+: grammar.afterBlanks text := by
  cases row with
  | next ignored here _ =>
      rw [ignored.afterBlanks_append, here.solid]
      exact here.begins

theorem done_or_begins (row : Row Taken offset text pieces) : grammar.afterBlanks text = [] ∨
    ∃ word ∈ definitionBeginnings, word.toList <+: grammar.afterBlanks text := by
  cases pieces with
  | nil =>
      cases row with
      | done blank => exact Or.inl blank
  | cons piece pieces =>
      rcases row.begins with ⟨word, member, begins⟩
      refine Or.inr ⟨word, ?_, begins⟩
      obtain ⟨kind, _, _⟩ := piece
      cases kind with
      | executable => exact List.mem_append_left _ member
      | typeSystem => exact List.mem_append_right _ member

section Extent

/-- A text of definitions can be walked through. -/
theorem walk (row : Row Extent offset text pieces) : Walk 0 text 0 [] := by
  induction row with
  | @done _ text blank =>
      have walk := walk_afterBlanks 0 text
      rw [blank] at walk
      exact walk
  | next ignored here _ ih => exact (ignored.walk 0 _).trans (here.walk.trans ih)

theorem eq_nil (row : Row Extent offset [] pieces) : pieces = [] := by
  generalize empty : [] = text at row
  cases row with
  | done => rfl
  | next _ here _ =>
      have none := (List.append_eq_nil_iff.mp empty.symm).2
      exact absurd (List.append_eq_nil_iff.mp none).1 here.ne_nil

/-- The blanks before the first piece belong to the row. -/
theorem of_afterBlanks {size : Nat}
    (row : Row Extent (size - (grammar.afterBlanks text).length) (grammar.afterBlanks text) pieces)
    (fits : text.length ≤ size) : Row Extent (size - text.length) text pieces := by
  rcases afterBlanks_cases text with ⟨gap, first, rest, rfl, ignored, _, after⟩ | ⟨none, _⟩
  · rw [after] at row
    apply of_gap ignored
    rw [List.length_append] at fits ⊢
    have here : size - (gap.length + (first :: rest).length) + gap.length =
        size - (first :: rest).length := by omega
    rw [here]
    exact row
  · rw [none] at row
    rw [row.eq_nil]
    exact .done none

end Extent

end Row

/-! ## Texts of one kind -/

section OneKind

variable {kind : Kind} {offset : Nat} {text : List Char} {pieces : List Piece}

theorem not_brace_of_typeSystem {text : List Char} {word : String}
    (member : word ∈ Kind.typeSystem.beginnings) (begins : word.toList <+: text) :
    ¬"\x7b".toList <+: text := by
  have apart : ∀ word ∈ typeSystemBeginnings,
      ¬(word.toList <+: "\x7b".toList ∨ "\x7b".toList <+: word.toList) := by decide
  intro brace
  exact apart word member (List.prefix_or_prefix_of_prefix begins brace)

/-- What may follow a definition in a text of its kind. -/
theorem follows_of_row {front other : List Char} {final : Char} {bodiless : Prop}
    (spans : Spans kind front final other) (row : Row Taken offset text pieces)
    (same : ∀ piece ∈ pieces, piece.kind = kind) : Follows final bodiless text := by
  refine ⟨row.done_or_begins, fun brace => ?_⟩
  cases pieces with
  | nil =>
      cases row with
      | done blank =>
          rw [blank] at brace
          cases brace.length_le
  | cons piece pieces =>
      rcases row.begins with ⟨word, member, begins⟩
      rw [same piece List.mem_cons_self] at member
      cases kind with
      | executable =>
          rcases spans.final_mem with closed | ⟨absurd, _⟩
          · exact Or.inl closed
          · cases absurd
      | typeSystem => exact absurd brace (not_brace_of_typeSystem member begins)

/-- In a text of one kind, what is read as a definition also matches on its own. -/
theorem matched_of_row {rest : List Char} (here : Extent kind text rest)
    (row : Row Extent offset rest pieces) (same : ∀ piece ∈ pieces, piece.kind = kind) :
    Matched kind text := by
  rcases here with ⟨front, final, rfl, spans⟩
  have follows : Follows final (Bodiless (front ++ final :: rest)) rest :=
    follows_of_row spans (row.imp fun _ _ _ => Extent.taken) same
  have ends : Follows final (Bodiless (front ++ final :: rest)) [] := by
    refine ⟨Or.inl rfl, fun brace => ?_⟩
    cases brace.length_le
  have strings : ∀ unit others depth, Walk 0 (front ++ final :: rest) depth (unit ++ (others ++ rest)) →
      (rule .string).Reads grammar .joined (unit ++ (others ++ rest)) (some (others ++ rest)) →
      (rule .string).Reads grammar .joined (unit ++ (others ++ [])) (some (others ++ [])) := by
    intro unit others _ _ reads
    rw [List.append_nil]
    exact string_truncate reads
  refine ⟨spans.solid_before [], ?_⟩
  rcases spans.reads_before strings follows ends (fun _ => rfl) with ⟨after, reads, rfl | rfl⟩
  · exact orderly.reads_iff.mp reads
  · exact orderly.reads_iff.mp reads

theorem row_proper (row : Row Extent offset text pieces)
    (same : ∀ piece ∈ pieces, piece.kind = kind) : Row Proper offset text pieces := by
  induction row with
  | done blank => exact .done blank
  | next ignored here more ih =>
      have own := same _ List.mem_cons_self
      have others := fun piece member => same piece (List.mem_cons_of_mem _ member)
      refine .next ignored ⟨here, ?_⟩ (ih others)
      dsimp only at own
      subst own
      exact matched_of_row here more others

/-- The matches of a text are its pieces. -/
theorem row_of_matches {size : Nat} {trees : List Reader.Match}
    (series : Matches kind size text trees) (solid : grammar.afterBlanks text = text)
    (fits : text.length ≤ size) :
    ∃ pieces, Row Extent (size - text.length) text pieces ∧
      (∀ piece ∈ pieces, piece.kind = kind) ∧ pieces.map Piece.offset = trees.map Tree.offset := by
  induction series with
  | done => exact ⟨[], .done rfl, by simp, rfl⟩
  | @next text rest tree trees found _ ih =>
      have reads := (reads_of_call (Cursor.before_within fits) found).1
      rcases exists_spans solid reads with ⟨front, final, after, rfl, spans, ends⟩
      rcases exists_children (by cases kind <;> rfl) found with ⟨children, same, _⟩
      cases same
      have again : grammar.afterBlanks rest = grammar.afterBlanks after := by
        rcases ends with rfl | rfl
        · rfl
        · exact afterBlanks_afterBlanks after
      have shorter := (orderly.afterBlanks_suffix after).length_le
      simp only [List.length_append, List.length_cons] at fits
      rw [again] at ih
      rcases ih (afterBlanks_afterBlanks after) (by omega) with ⟨pieces, row, same, offsets⟩
      have more := row.of_afterBlanks (by omega)
      have start : size - after.length =
          size - (front ++ final :: after).length + (front ++ [final]).length := by
        simp only [List.length_append, List.length_cons, List.length_nil]
        omega
      rw [start] at more
      refine ⟨⟨kind, size - (front ++ final :: after).length, front ++ [final]⟩ :: pieces, ?_, ?_, ?_⟩
      · have whole := Row.at_once ⟨front, final, rfl, spans⟩ more
        rw [List.append_assoc] at whole
        exact whole
      · intro piece member
        rcases List.mem_cons.mp member with rfl | later
        · rfl
        · exact same piece later
      · rw [List.map_cons, List.map_cons, offsets]
        rfl

theorem offsets_of_located {size : Nat} {place : Nat → Position} {trees : List Reader.Match}
    {lists : List (List (Nat × Definition))} (series : Matches kind size text trees)
    (read : trees.mapM (locatedIn kind place) = .ok lists) :
    lists.flatten.map Prod.fst = trees.map Tree.offset := by
  induction series generalizing lists with
  | done =>
      cases read
      rfl
  | next found _ ih =>
      rw [List.mapM_cons] at read
      rcases bind_eq_ok read with ⟨here, hereRead, others⟩
      rcases bind_eq_ok others with ⟨there, thereRead, same⟩
      cases same
      rcases map_eq_ok hereRead with ⟨definitions, defined, rfl⟩
      rcases read_match found defined with ⟨definition, rfl, _, _⟩
      rw [List.flatten_cons, List.map_append, List.map_cons, ih thereRead]
      rfl

/-- The pieces of a text of one kind, each with the definition that it stands for. -/
theorem row_of_located {found : List (Nat × Definition)} (read : located kind text = .ok found) :
    ∃ pieces, pieces ≠ [] ∧ Row Extent 0 text pieces ∧ (∀ piece ∈ pieces, piece.kind = kind) ∧
      found.map Prod.fst = pieces.map Piece.offset := by
  rcases matches_of_located read with ⟨trees, lists, some, series, matched, rfl⟩
  have shorter := (orderly.afterBlanks_suffix text).length_le
  rcases row_of_matches series (afterBlanks_afterBlanks text) shorter with
    ⟨pieces, row, same, offsets⟩
  have whole := row.of_afterBlanks (Nat.le_refl _)
  rw [Nat.sub_self] at whole
  refine ⟨pieces, ?_, whole, same, ?_⟩
  · rintro rfl
    exact some (List.map_eq_nil_iff.mp offsets.symm)
  · rw [offsets, offsets_of_located series matched]

end OneKind

end PreviewLint
