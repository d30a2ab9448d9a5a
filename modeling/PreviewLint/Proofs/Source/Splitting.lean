import PreviewLint.Proofs.Source.Joining

/-!
# Texts that are read by splitting

A text that mixes both kinds of definitions is read by its halves. Each half divides into pieces,
one for every definition of the document. The text itself divides into these pieces exactly if
they all stand in the text as they stand in their halves, provided that its comments end where
its lines end.
-/

namespace PreviewLint

open GraphQL Outline Peg

section Leading

variable {outline : Outline} {pieces : Kind → List Piece}

theorem half_eq (outline : Outline) (kind : Kind) :
    outline.half kind = outline.leading ++ outline.sections.flatMap (Section.kept kind) := rfl

/-- No definition begins before the first section: it would begin there in both halves. -/
theorem not_starts_leading (rows : ∀ kind, Row Proper 0 (outline.half kind) (pieces kind))
    (some : ∀ kind, pieces kind ≠ []) (kinds : ∀ kind, ∀ piece ∈ pieces kind, piece.kind = kind)
    (kind : Kind) :
    ¬Row.StartsWithin outline.leading.length 0 (outline.half kind) (pieces kind) := by
  rintro ⟨gap, _, piece, rest, more, ignored, within, here, _, split, _⟩
  rcases here.1.head_solid with ⟨first, others, rfl, solid⟩
  have lengths := congrArg List.length split
  rw [half_eq, List.length_append, List.length_append] at lengths
  have leading : ∃ middle, outline.leading = gap ++ first :: middle := by
    rw [half_eq] at split
    rcases exists_middle split.symm (by omega) with ⟨middle, whole, same⟩
    cases middle with
    | nil =>
        rw [whole, List.append_nil] at within
        exact absurd within (Nat.lt_irrefl _)
    | cons character middle =>
        injection same with same
        subst same
        exact ⟨middle, whole⟩
  rcases leading with ⟨middle, leading⟩
  -- Both halves have the leading text, so both have their first definition there.
  have after : ∀ other, grammar.afterBlanks (outline.half other) =
      (outline.half other).drop gap.length := by
    intro other
    rw [half_eq, leading, List.append_assoc, ignored.afterBlanks_append, List.drop_left]
    exact afterBlanks_solid solid
  have begins : ∀ other : Kind, ∃ word ∈ other.beginnings,
      word.toList <+: (outline.half other).drop gap.length := by
    intro other
    cases pieces_eq : pieces other with
    | nil => exact absurd pieces_eq (some other)
    | cons one more =>
        have row := (rows other).imp fun _ _ _ here => here.1.taken
        have own := kinds other one (pieces_eq ▸ List.mem_cons_self)
        rw [pieces_eq] at row
        rw [← after other]
        have starts := row.begins
        rw [own] at starts
        exact starts
  exact not_begins_of_shared (List.forall₂_drop gap.length (shared_halves outline))
    (begins .executable) (begins .typeSystem)

end Leading

/-- Pieces of both halves that stand in a text divide the text. -/
theorem exists_division_of_halves {text : List Char} {pieces : Kind → List Piece}
    (ends : ∀ lexeme ∈ lexemes text, EndsComment lexeme)
    (rows : ∀ kind, Row Proper 0 ((ofText text).half kind) (pieces kind))
    (some : ∀ kind, pieces kind ≠ []) (kinds : ∀ kind, ∀ piece ∈ pieces kind, piece.kind = kind)
    (sections : (ofText text).sections ≠ [])
    (stands : ∀ kind, ∀ piece ∈ pieces kind, piece.text <+: text.drop piece.offset) :
    ∃ all, all.Perm (pieces .executable ++ pieces .typeSystem) ∧ Division 0 text all := by
  have solid : ∀ part ∈ (ofText text).sections, ∃ first more, part.text = first :: more ∧ isSolid first :=
    fun part member => solid_of_mem_sections member
  have boundary : ∀ kind before after, (ofText text).sections = before ++ after → after ≠ [] →
      ∃ depth, Walk 0 ((ofText text).half kind) depth (after.flatMap (Section.kept kind)) := by
    intro kind before after split last
    have walk := ((rows kind).imp fun _ _ _ here => here.1).walk
    rw [half_ofText] at walk ⊢
    exact walk_sections ends walk split last
  have whole := text_ofText text
  have begins := not_starts_leading rows some kinds
  generalize ofText text = outline at *
  obtain ⟨leading, parts⟩ := outline
  cases parts with
  | nil => exact absurd rfl sections
  | cons part parts =>
      -- The first section begins at a boundary of both halves.
      have cut : ∀ kind, Ignored leading ∧
          Row Proper (0 + leading.length) ((part :: parts).flatMap (Section.kept kind)) (pieces kind) := by
        intro kind
        rcases boundary kind [] (part :: parts) rfl (by simp) with ⟨depth, walk⟩
        have row := rows kind
        rw [half_eq] at row walk
        rcases row.cut walk (head_flatMap_kept kind (solid part List.mem_cons_self)) with starts | cut
        · exact absurd starts (begins kind)
        · exact cut
      have blank := (cut .executable).1
      have joint : Joint text (0 + leading.length) part parts pieces := {
        rest := by
          rw [← whole, Nat.zero_add]
          exact List.drop_left
        solid := fun other member => solid other (List.mem_cons_of_mem _ member)
        rows := fun kind => (cut kind).2
        walks := by
          rintro kind before after rfl last
          rcases boundary kind (part :: before) after rfl last with ⟨depth, walk⟩
          refine ⟨depth, (blank.walk 0 _).linear walk ?_⟩
          simp only [List.flatMap_cons, List.flatMap_append, List.length_append]
          omega
        stands }
      rcases joint.exists_division with ⟨all, perm, division⟩
      have divided := Row.of_gap blank division
      rw [← whole]
      exact ⟨all, perm, divided⟩

/-! ## One definition for every piece -/

/-- The kind of a definition and its position. -/
def Definition.key (definition : Definition) : Kind × Position := (definition.kind, definition.position)

/-- The kind of a piece of a text and its position. -/
def Piece.key (text : List Char) (piece : Piece) : Kind × Position :=
  (piece.kind, Position.following (text.take piece.offset))

/-- The definitions of a half and its pieces are the same in number, kind and position. -/
theorem keys_eq {kind : Kind} {text : List Char} {found : List (Nat × Definition)} {pieces : List Piece}
    (read : located kind ((ofText text).half kind) = .ok found)
    (offsets : found.map Prod.fst = pieces.map Piece.offset)
    (kinds : ∀ piece ∈ pieces, piece.kind = kind) :
    found.map (fun entry => entry.2.key) = pieces.map (Piece.key text) := by
  let key := fun offset => (kind, Position.following (text.take offset))
  have stands : ∀ entry ∈ found, entry.2.key = key entry.1 := by
    intro entry member
    have here := ((stands_of_located read).2 entry member).of_half
    exact Prod.ext here.kind_eq here.position_eq
  have placed : ∀ piece ∈ pieces, Piece.key text piece = key piece.offset := by
    intro piece member
    exact Prod.ext (kinds piece member) rfl
  calc found.map (fun entry => entry.2.key)
      _ = found.map (fun entry => key entry.1) := List.map_congr_left stands
      _ = (found.map Prod.fst).map key := by rw [List.map_map]; rfl
      _ = (pieces.map Piece.offset).map key := by rw [offsets]
      _ = pieces.map (fun piece => key piece.offset) := by rw [List.map_map]; rfl
      _ = pieces.map (Piece.key text) := (List.map_congr_left placed).symm

namespace Document

theorem isOk_eq_false {ε α : Type} {computed : Except ε α} {result : α} (refused : computed.isOk = false) :
    computed ≠ .ok result := by
  rintro rfl
  cases refused

/-- A text of which neither reader takes the whole is read by its halves. -/
theorem split_of_parse {source : String} {document : Document}
    (parsed : parse source = .ok document)
    (executable : (Reader.executable source.toList).isOk = false)
    (typeSystem : (Reader.typeSystem source.toList).isOk = false) :
    (∀ kind, (ofText source.toList).has kind) ∧
      ofHalves ((ofText source.toList).half .executable) ((ofText source.toList).half .typeSystem) =
        .ok document := by
  rw [parse] at parsed
  split at parsed
  · next read => exact absurd read (isOk_eq_false executable)
  · cases parsed
  · rw [ofMixed] at parsed
    split at parsed
    · next read => exact absurd read (isOk_eq_false typeSystem)
    · dsimp only at parsed
      split at parsed
      · next both =>
          refine ⟨fun kind => ?_, parsed⟩
          rw [Bool.and_eq_true] at both
          cases kind with
          | executable => exact both.1
          | typeSystem => exact both.2
      · cases parsed

/--
A text that is read by splitting has one definition for every piece of its halves. It divides
into these pieces exactly if every one of them stands in the text, where no carriage return
stands inside of a comment.
-/
theorem split_divides_iff {source : String} {document : Document}
    (parsed : parse source = .ok document)
    (executable : (Reader.executable source.toList).isOk = false)
    (typeSystem : (Reader.typeSystem source.toList).isOk = false) :
    ∃ pieces : Kind → List Piece,
      (∀ kind, Division 0 ((ofText source.toList).half kind) (pieces kind) ∧
        ∀ piece ∈ pieces kind, piece.kind = kind) ∧
      (document.definitions.map Definition.key).Perm
        ((pieces .executable ++ pieces .typeSystem).map (Piece.key source.toList)) ∧
      ((∀ lexeme ∈ lexemes source.toList, EndsComment lexeme) →
        ((∀ kind, ∀ piece ∈ pieces kind, piece.text <+: source.toList.drop piece.offset) ↔
          ∃ all, all.Perm (pieces .executable ++ pieces .typeSystem) ∧
            Division 0 source.toList all)) := by
  rcases split_of_parse parsed executable typeSystem with ⟨both, read⟩
  rcases ofHalves_eq_ok read with ⟨one, other, definitions, oneHere, otherHere, rfl, together⟩
  rcases row_of_located oneHere with ⟨ones, someOnes, oneRow, oneKinds, oneOffsets⟩
  rcases row_of_located otherHere with ⟨others, someOthers, otherRow, otherKinds, otherOffsets⟩
  -- From here on both halves are treated alike.
  let pieces : Kind → List Piece := @Kind.rec (fun _ => List Piece) ones others
  have rows : ∀ kind, Row Proper 0 ((ofText source.toList).half kind) (pieces kind) := by
    intro kind
    cases kind with
    | executable => exact row_proper oneRow oneKinds
    | typeSystem => exact row_proper otherRow otherKinds
  have some : ∀ kind, pieces kind ≠ [] := by
    intro kind
    cases kind with
    | executable => exact someOnes
    | typeSystem => exact someOthers
  have kinds : ∀ kind, ∀ piece ∈ pieces kind, piece.kind = kind := by
    intro kind
    cases kind with
    | executable => exact oneKinds
    | typeSystem => exact otherKinds
  refine ⟨pieces, fun kind => ⟨(rows kind).imp fun _ _ _ here => here.2, kinds kind⟩, ?_, ?_⟩
  · have perm := ((perm_ofDefinitions definitions).trans together).map Definition.key
    rw [List.map_map, List.map_append] at perm
    rw [List.map_append, ← keys_eq oneHere oneOffsets oneKinds, ← keys_eq otherHere otherOffsets otherKinds]
    exact perm
  · intro ends
    constructor
    · have sections : (ofText source.toList).sections ≠ [] := by
        intro none
        have found := both .executable
        rw [has, none] at found
        cases found
      exact exists_division_of_halves ends rows some kinds sections
    · rintro ⟨all, perm, division⟩ kind piece member
      apply division.stands rfl
      apply perm.mem_iff.mpr
      cases kind with
      | executable => exact List.mem_append_left _ member
      | typeSystem => exact List.mem_append_right _ member

/-- A query and a scalar. -/
def mixed : String := "\x7b a \x7d scalar S"

set_option maxRecDepth 100000 in
theorem unbroken_in_mixed : ∀ offset < 15, ∀ size < 15, ∀ kind ∈ [Kind.executable, .typeSystem],
    (((ofText mixed.toList).half kind).drop offset).take size <+: mixed.toList.drop offset ∨
      ¬Matched kind ((((ofText mixed.toList).half kind).drop offset).take size) := by
  decide +kernel

set_option maxRecDepth 100000 in
/-- The query and the scalar divide their text. -/
theorem mixed_divides : ∃ document all, parse mixed = .ok document ∧
    Division 0 mixed.toList all ∧
    (document.definitions.map Definition.key).Perm (all.map (Piece.key mixed.toList)) := by
  have read : (parse mixed).isOk := by decide +kernel
  have lengths : ∀ kind, ((ofText mixed.toList).half kind).length < 15
    | .executable => by decide +kernel
    | .typeSystem => by decide +kernel
  cases parsed : parse mixed with
  | error problem =>
      rw [parsed] at read
      cases read
  | ok document =>
      rcases split_divides_iff parsed (by decide +kernel) (by decide +kernel) with
        ⟨pieces, halves, perm, divides⟩
      have stands : ∀ kind, ∀ piece ∈ pieces kind, piece.text <+: mixed.toList.drop piece.offset := by
        intro kind piece member
        have here : piece.text <+: ((ofText mixed.toList).half kind).drop piece.offset :=
          (halves kind).1.stands rfl piece member
        rcases (halves kind).1.exists_rest piece member with ⟨_, matched⟩
        rw [(halves kind).2 piece member] at matched
        have short := here.length_le
        have bound := lengths kind
        rw [List.length_drop] at short
        rcases Nat.lt_or_ge piece.offset 15 with inside | outside
        · rw [List.prefix_iff_eq_take.mp here] at matched ⊢
          rcases unbroken_in_mixed piece.offset inside piece.text.length (by omega) kind
            (by cases kind <;> simp) with stands | unmatched
          · exact stands
          · exact absurd matched unmatched
        · have none : piece.text = [] := List.eq_nil_of_length_eq_zero (by omega)
          rw [none]
          exact List.nil_prefix
      rcases (divides (by decide +kernel)).mp stands with ⟨all, same, division⟩
      exact ⟨document, all, rfl, division, perm.trans (same.map _).symm⟩

/-- A query that goes on after a type. -/
def interrupted : String := "query Q type T \x7b a: Int \x7d \x7b b \x7d"

set_option maxRecDepth 100000 in
/-- The query is read over the type, though no definition begins the text. -/
theorem interrupted_undivided : (parse interrupted).isOk ∧
    (Reader.executable interrupted.toList).isOk = false ∧
    (Reader.typeSystem interrupted.toList).isOk = false ∧
    ¬∃ pieces, Division 0 interrupted.toList pieces := by
  refine ⟨by decide +kernel, by decide +kernel, by decide +kernel, ?_⟩
  have unmatched : ∀ size < 32, ∀ kind ∈ [Kind.executable, .typeSystem],
      ¬Matched kind (interrupted.toList.take size) := by decide +kernel
  have solid : grammar.afterBlanks interrupted.toList = interrupted.toList := by decide +kernel
  have short : interrupted.toList.length < 32 := by decide +kernel
  have some : interrupted.toList ≠ [] := by decide +kernel
  rintro ⟨pieces, division⟩
  generalize interrupted.toList = text at solid short unmatched division some
  cases division with
  | done blank => exact some (solid.symm.trans blank)
  | @next _ gap kind piece rest pieces ignored here _ =>
      -- The text begins with its first piece, since nothing before it can be ignored.
      rw [ignored.afterBlanks_append] at solid
      have suffix := (orderly.afterBlanks_suffix (piece ++ rest)).length_le
      rw [solid] at suffix
      simp only [List.length_append] at suffix short
      have none : gap = [] := List.eq_nil_of_length_eq_zero (by omega)
      subst none
      apply unmatched piece.length (by omega) kind (by cases kind <;> simp)
      rw [List.nil_append, List.take_left]
      exact here

end Document

end PreviewLint
