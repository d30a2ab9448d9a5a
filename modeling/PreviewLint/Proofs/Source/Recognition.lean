import PreviewLint.Proofs.Source.Readable
import PreviewLint.Proofs.Source.Sectioning
import PreviewLint.Proofs.Source.Splitting

/-!
# Texts whose definitions are recognized

If the scan recognizes every definition of a text, each of them is in a section of its kind, and
so it is whole in the half of its kind. There it is read as it is read from the text, since a half
differs from the text only in blanks. A text of both kinds is then read by its halves, and the
document has one definition for every definition of the text.

A keyword that stands outside of brackets and is not the name of a definition leads the scan
astray, for instance as the name of a directive.
-/

namespace PreviewLint

open GraphQL Outline Peg

/-- A definition that is read from the text, and that the scan recognizes. -/
def Recognized (kind : Kind) (text after : List Char) : Prop :=
  Extent kind text after ∧ Recognizable kind text after

/-- A definition that is read up to some place ends there, if no blanks lead to that place. -/
theorem extent_of_rest {kind : Kind} {text after : List Char}
    (solid : grammar.afterBlanks (text ++ after) = text ++ after)
    (read : grammar.rest? kind.definition (text ++ after) = some after)
    (only : ∀ size ≤ (text ++ after).length, grammar.afterBlanks ((text ++ after).drop size) = after →
      (text ++ after).drop size = after) : Extent kind text after := by
  rcases exists_spans solid (orderly.reads_iff.mpr read) with ⟨front, final, rest, split, spans, ends⟩
  have rest_eq : (text ++ after).drop (front.length + 1) = rest := by
    rw [split, ← List.drop_drop, List.drop_left]
    rfl
  have same : after = rest := by
    rcases ends with same | same
    · exact same
    · rw [← rest_eq] at same ⊢
      refine (only _ ?_ same.symm).symm
      rw [split, List.length_append, List.length_cons]
      omega
  subst same
  refine ⟨front, final, ?_, spans⟩
  rw [List.append_cons] at split
  exact List.append_cancel_right split

/-! ## A definition in its half -/

section Kept

variable {kind : Kind} {after kept : List Char}

theorem isNamePart_of_kept (same : List.Forall₂ Kept kept after) (part : kept.head?.any isNamePart) :
    after.head?.any isNamePart := by
  cases same with
  | nil => cases part
  | cons here _ =>
      rcases here with rfl | ⟨_, rfl⟩
      · exact part
      · cases part

/-- A string of the text is a string in its half. -/
theorem string_kept {unit others : List Char}
    (reads : (rule .string).Reads grammar .joined (unit ++ (others ++ after)) (some (others ++ after)))
    (certain : ¬Doubtful unit (others ++ after)) (same : List.Forall₂ Kept kept after) :
    (rule .string).Reads grammar .joined (unit ++ (others ++ kept)) (some (others ++ kept)) := by
  have alone : (rule .string).Reads grammar .joined (unit ++ []) (some []) := string_truncate reads
  rw [List.append_nil] at alone
  refine string_before alone ?_
  rintro ⟨rfl, head⟩
  refine certain ⟨rfl, ?_⟩
  cases others with
  | cons character others => exact head
  | nil =>
      cases same with
      | nil => exact head
      | cons here _ =>
          cases head
          rcases here with rfl | ⟨_, blank⟩
          · rfl
          · cases blank

/-- A definition of the text is read in the same way from its half. -/
theorem taken_kept {front : List Char} {final : Char} (spans : Spans kind front final after)
    (regular : ∀ lexeme ∈ lexemes (front ++ final :: after), Regular lexeme)
    (same : List.Forall₂ Kept kept after) (apart : isNamePart final → after.head?.any isNamePart = false)
    (follows : Follows final (Bodiless (front ++ final :: after)) after)
    (follows' : Follows final (Bodiless (front ++ final :: after)) kept) :
    Taken kind (front ++ [final]) kept where
  ne_nil := by simp
  solid := by
    rw [List.append_assoc]
    exact spans.solid_before kept
  reads := by
    have stops : isNamePart final → kept.head?.any isNamePart = false := fun part =>
      Bool.eq_false_iff.mpr fun next => by
        rw [isNamePart_of_kept same next] at apart
        cases apart part
    rw [List.append_assoc]
    refine spans.reads_before (fun unit others depth walk reads => ?_) follows follows' stops
    exact string_kept reads (not_doubtful regular walk reads) same

end Kept

/-! ## Rows of definitions -/

section Blanks

variable (half : Kind) (other : Option Kind) {gap : List Char}

theorem keptIn_cases : keptIn half other gap = gap ∨
    ∀ character ∈ keptIn half other gap, isBlank character := by
  cases other with
  | none => exact Or.inl rfl
  | some other =>
      simp only [keptIn, Section.kept]
      split
      · exact Or.inl rfl
      · exact Or.inr fun _ => isBlank_of_mem_blanked

theorem ignored_keptIn (ignored : Ignored gap) : Ignored (keptIn half other gap) := by
  rcases keptIn_cases half other with same | blank
  · rw [same]
    exact ignored
  · exact .of_blanks blank

theorem afterBlanks_keptIn (blank : grammar.afterBlanks gap = []) :
    grammar.afterBlanks (keptIn half other gap) = [] := by
  rcases keptIn_cases half other with same | blanks
  · rw [same]
    exact blank
  · have none : grammar.afterBlanks (keptIn half other gap ++ []) = [] :=
      (Ignored.of_blanks blanks).afterBlanks_append
    rw [List.append_nil] at none
    exact none

theorem length_keptIn : (keptIn half other gap).length = gap.length := (kept_keptIn half other gap).length_eq

end Blanks

theorem keptFrom_nil (half : Kind) (scan : Scan) : keptFrom half scan [] = [] := by
  rw [keptFrom, sectionsFrom, keptIn_nil]
  rfl

/-- The pieces of a kind. -/
abbrev ofKind (pieces : List Piece) (kind : Kind) : List Piece := pieces.filter (·.kind = kind)

theorem kind_of_mem_ofKind {pieces : List Piece} {kind : Kind} :
    ∀ piece ∈ ofKind pieces kind, piece.kind = kind := by
  intro piece member
  simpa using (List.mem_filter.mp member).2

section Row

variable {offset : Nat} {text : List Char} {pieces : List Piece} {scan : Scan}

/-- The scan goes over blanks and over a definition. -/
theorem exists_next {gap rest : List Char} {kind : Kind} (ignored : Ignored gap)
    (here : Recognized kind text rest)
    (regular : ∀ lexeme ∈ lexemes (gap ++ (text ++ rest)), Regular lexeme) (ready : scan.Ready)
    (unawaited : "\x7b".toList <+: grammar.afterBlanks (gap ++ (text ++ rest)) →
      scan.awaitsBody = false) :
    ∃ final, lexemes (gap ++ (text ++ rest)) = lexemes gap ++ (lexemes text ++ lexemes rest) ∧
      Goes (scan.heading.map Heading.kind) scan (lexemes gap) scan ∧
      Sections scan kind text rest final ∧ (∀ lexeme ∈ lexemes (text ++ rest), Regular lexeme) ∧
      ∀ lexeme ∈ lexemes rest, Regular lexeme := by
  have solid : ∀ first ∈ (text ++ rest).head?, isSolid first := by
    rcases here.1.head_solid with ⟨first, more, rfl, solid⟩
    rintro head ⟨⟩
    exact solid
  rcases lexemes_gap ignored solid regular with ⟨split, idle⟩
  have regular' : ∀ lexeme ∈ lexemes (text ++ rest), Regular lexeme := fun lexeme member =>
    regular lexeme (split ▸ List.mem_append_right _ member)
  have opens : "\x7b".toList <+: text → scan.awaitsBody = false := fun brace => by
    apply unawaited
    rw [ignored.afterBlanks_append, here.1.solid]
    exact brace.trans (List.prefix_append _ _)
  rcases exists_sections here.1 here.2 regular' ready opens with ⟨final, sections⟩
  have both := lexemes_extent here.1 here.2.apart regular'
  rw [both] at split
  refine ⟨final, split, goes_idle ready.calm idle, sections, regular', fun lexeme member => ?_⟩
  exact regular' lexeme (both ▸ List.mem_append_right _ member)

/-- A definition of the text is read from its half, if the definitions after it are. -/
theorem taken_half {rest : List Char} {kind : Kind} {later : List Piece} {start : Nat} {final : Scan}
    (here : Recognized kind text rest) (more : Row Recognized offset rest pieces)
    (regular : ∀ lexeme ∈ lexemes (text ++ rest), Regular lexeme)
    (sections : Sections scan kind text rest final)
    (row : Row Taken start (keptFrom kind final (lexemes rest)) later)
    (same : ∀ piece ∈ later, piece.kind = kind) :
    Taken kind text (keptFrom kind final (lexemes rest)) := by
  have kept := kept_keptFrom kind final (lexemes rest)
  rw [flatten_lexemes] at kept
  have begins := (more.imp fun _ _ _ here => here.1.taken).done_or_begins
  have brace := sections.brace
  have apart := here.2.apart
  rcases here.1 with ⟨front, last, rfl, spans⟩
  rw [List.getLast?_concat] at brace apart
  rw [List.append_assoc] at regular brace
  refine taken_kept spans regular kept apart ⟨begins, fun next => ?_⟩ (follows_of_row spans row same)
  exact (brace next).2.imp_left Option.some.inj

/-- Every definition is read from its half. -/
theorem row_half (row : Row Recognized offset text pieces)
    (regular : ∀ lexeme ∈ lexemes text, Regular lexeme) (ready : scan.Ready)
    (unawaited : "\x7b".toList <+: grammar.afterBlanks text → scan.awaitsBody = false) (half : Kind) :
    Row Taken offset (keptFrom half scan (lexemes text)) (ofKind pieces half) := by
  induction row generalizing scan with
  | @done offset text blank =>
      have goes := goes_idle ready.calm (idle_of_afterBlanks blank regular)
      have kept : keptFrom half scan (lexemes text ++ []) = _ := goes.keptFrom_append half
      rw [List.append_nil, flatten_lexemes, keptFrom_nil, List.append_nil] at kept
      rw [kept]
      exact .done (afterBlanks_keptIn half _ blank)
  | @next offset gap kind text rest pieces ignored here more ih =>
      rcases exists_next ignored here regular ready unawaited with
        ⟨final, split, goes, sections, regular', others⟩
      have rows := ih others sections.ready fun brace => (sections.brace brace).1
      rw [split, goes.keptFrom_append, sections.goes.keptFrom_append, flatten_lexemes, flatten_lexemes]
      have blanks := ignored_keptIn half (scan.heading.map Heading.kind) ignored
      rw [← length_keptIn half (scan.heading.map Heading.kind)] at rows ⊢
      by_cases own : kind = half
      · subst own
        have taken := taken_half here more regular' sections rows kind_of_mem_ofKind
        rw [ofKind, List.filter_cons_of_pos (by simp), keptIn, Section.kept, if_pos rfl]
        exact .next blanks taken rows
      · rw [ofKind, List.filter_cons_of_neg (by simpa using own)]
        have foreign : Ignored (blanked text) := .of_blanks fun _ => isBlank_of_mem_blanked
        rw [keptIn, Section.kept_foreign own]
        rw [← length_blanked text] at rows
        exact .of_gap blanks (.of_gap foreign rows)

/-- Every definition has a section of its kind. -/
theorem exists_section (row : Row Recognized offset text pieces)
    (regular : ∀ lexeme ∈ lexemes text, Regular lexeme) (ready : scan.Ready)
    (unawaited : "\x7b".toList <+: grammar.afterBlanks text → scan.awaitsBody = false) :
    ∀ piece ∈ pieces, ∃ part ∈ (sectionsFrom scan (lexemes text)).2, part.kind = piece.kind := by
  induction row generalizing scan with
  | done => simp
  | @next offset gap kind text rest pieces ignored here more ih =>
      rcases exists_next ignored here regular ready unawaited with
        ⟨final, split, goes, sections, _, others⟩
      rw [split, List.forall_mem_cons]
      constructor
      · rcases sections.begins (lexemes rest) with ⟨part, member, own⟩
        exact ⟨part, goes.sections_subset member, own⟩
      · intro piece later
        rcases ih others sections.ready (fun brace => (sections.brace brace).1) piece later with
          ⟨part, member, own⟩
        exact ⟨part, goes.sections_subset (sections.goes.sections_subset member), own⟩

end Row

/-! ## Texts of both kinds -/

section Mixed

variable {text : List Char} {pieces : List Piece} {kind : Kind}

theorem ready_start : ({} : Scan).Ready := ⟨rfl, rfl, rfl⟩

/-- A text with a definition of the other kind is not read as a whole. -/
theorem located_ne_ok (row : Row Taken 0 text pieces) {piece : Piece} (member : piece ∈ pieces)
    (other : piece.kind ≠ kind) {found : List (Nat × Definition)} : located kind text ≠ .ok found := by
  intro read
  rcases row_of_located read with ⟨pieces', _, row', kinds, _⟩
  have marks := row.marks_eq (row'.imp fun _ _ _ => Extent.taken) rfl rfl
  have listed : piece.mark ∈ pieces'.map Piece.mark := by
    rw [← marks]
    exact List.mem_map_of_mem member
  rcases List.mem_map.mp listed with ⟨piece', member', same⟩
  have same_kind : piece'.kind = piece.kind := congrArg Prod.fst same
  exact other (same_kind.symm.trans (kinds piece' member'))

/-- The definitions that are read from a half are those of the text. -/
theorem keys_of_row {found : List (Nat × Definition)}
    (row : Row Taken 0 ((ofText text).half kind) pieces) (kinds : ∀ piece ∈ pieces, piece.kind = kind)
    (read : located kind ((ofText text).half kind) = .ok found) :
    found.map (fun entry => entry.2.key) = pieces.map (Piece.key text) := by
  rcases row_of_located read with ⟨pieces', _, row', _, offsets⟩
  have marks := row.marks_eq (row'.imp fun _ _ _ => Extent.taken) rfl rfl
  have same := congrArg (List.map Prod.snd) marks
  rw [List.map_map, List.map_map] at same
  exact keys_eq read (offsets.trans same.symm) kinds

end Mixed

theorem perm_ofKind (pieces : List Piece) :
    (ofKind pieces .executable ++ ofKind pieces .typeSystem).Perm pieces := by
  have others : ofKind pieces .typeSystem = pieces.filter fun piece => !(piece.kind = .executable) := by
    refine List.filter_congr fun piece _ => ?_
    cases piece.kind <;> rfl
  rw [others]
  exact List.filter_append_perm _ _

namespace Document

/-- What is read from both halves is one definition for every definition of the text. -/
theorem perm_of_halves {text : List Char} {pieces : List Piece} {document : Document}
    (rows : ∀ kind, Row Taken 0 ((ofText text).half kind) (ofKind pieces kind))
    (read : ofHalves ((ofText text).half .executable) ((ofText text).half .typeSystem) = .ok document) :
    (document.definitions.map Definition.key).Perm (pieces.map (Piece.key text)) := by
  rcases ofHalves_eq_ok read with ⟨one, other, definitions, oneHere, otherHere, rfl, together⟩
  have perm := ((perm_ofDefinitions definitions).trans together).map Definition.key
  rw [List.map_map, List.map_append] at perm
  have ones := keys_of_row (rows .executable) kind_of_mem_ofKind oneHere
  have others := keys_of_row (rows .typeSystem) kind_of_mem_ofKind otherHere
  have both := (perm_ofKind pieces).map (Piece.key text)
  rw [List.map_append, ← ones, ← others] at both
  exact perm.trans both

theorem afterMatch_of_halves {text : List Char} {pieces : List Piece} {violation : Violation}
    (rows : ∀ kind, Row Taken 0 ((ofText text).half kind) (ofKind pieces kind))
    (both : ∀ kind, ofKind pieces kind ≠ [])
    (refused : ofHalves ((ofText text).half .executable) ((ofText text).half .typeSystem) =
      .error violation) : violation.afterMatch := by
  have parsed : ∀ kind, ∃ root, grammar.parse kind.document ((ofText text).half kind) = .ok root := by
    intro kind
    have row := rows kind
    have kinds := @kind_of_mem_ofKind pieces kind
    cases listed : ofKind pieces kind with
    | nil => exact absurd listed (both kind)
    | cons piece others =>
        rw [listed] at row kinds
        exact exists_parse row kinds
  rcases parsed .executable with ⟨one, oneParsed⟩
  rcases parsed .typeSystem with ⟨other, otherParsed⟩
  rcases bind_eq_error refused with refused | ⟨_, _, refused⟩
  · exact afterMatch_executable oneParsed refused
  · rcases bind_eq_error refused with refused | ⟨_, _, refused⟩
    · exact afterMatch_typeSystem otherParsed refused
    · cases refused

/-- A text of both kinds is read by its halves, if both have a section. -/
theorem parse_eq_halves {source : String} {pieces : List Piece}
    (row : Row Taken 0 source.toList pieces) (both : ∀ kind, ∃ piece ∈ pieces, piece.kind = kind)
    (has : ∀ kind, (ofText source.toList).has kind) :
    parse source = .error .operationCount ∨ parse source =
      ofHalves ((ofText source.toList).half .executable) ((ofText source.toList).half .typeSystem) := by
  have unread : ∀ kind found, located kind source.toList ≠ .ok found := by
    intro kind found
    cases kind with
    | executable =>
        rcases both .typeSystem with ⟨piece, member, own⟩
        exact located_ne_ok row member (by rw [own]; simp)
    | typeSystem =>
        rcases both .executable with ⟨piece, member, own⟩
        exact located_ne_ok row member (by rw [own]; simp)
  rw [parse]
  split
  · next read =>
      rcases executable_eq_ok read with ⟨found, here, _⟩
      exact absurd here (unread .executable found)
  · exact Or.inl rfl
  · right
    rw [ofMixed]
    split
    · next read =>
        rcases typeSystem_eq_ok read with ⟨found, here, _⟩
        exact absurd here (unread .typeSystem found)
    · simp only [has, Bool.and_self, if_true]

/--
In a text of recognized definitions of both kinds every definition is whole in the half of its
kind, and the document has one definition for each of them, unless the text is refused for
another reason than its syntax.
-/
theorem parse_of_recognized {source : String} {pieces : List Piece}
    (row : Row Recognized 0 source.toList pieces) (both : ∀ kind, ∃ piece ∈ pieces, piece.kind = kind)
    (regular : ∀ lexeme ∈ lexemes source.toList, Regular lexeme) :
    (∀ kind, (ofText source.toList).has kind) ∧
      (∀ piece ∈ pieces, piece.text <+: ((ofText source.toList).half piece.kind).drop piece.offset) ∧
      (∀ document, parse source = .ok document →
        (document.definitions.map Definition.key).Perm (pieces.map (Piece.key source.toList))) ∧
      ∀ violation, parse source = .error violation → violation.afterMatch := by
  have rows : ∀ kind, Row Taken 0 ((ofText source.toList).half kind) (ofKind pieces kind) :=
    row_half row regular ready_start fun _ => rfl
  have has : ∀ kind, (ofText source.toList).has kind := by
    intro kind
    rcases both kind with ⟨piece, member, rfl⟩
    rcases exists_section row regular ready_start (fun _ => rfl) piece member with ⟨part, listed, own⟩
    exact List.any_eq_true.mpr ⟨part, listed, beq_iff_eq.mpr own⟩
  have taken := row.imp fun _ _ _ here => here.1.taken
  have split := parse_eq_halves taken both has
  refine ⟨has, fun piece member => ?_, fun document parsed => ?_, fun violation refused => ?_⟩
  · exact (rows piece.kind).stands rfl piece (List.mem_filter.mpr ⟨member, by simp⟩)
  · rcases split with count | halves
    · rw [parsed] at count
      cases count
    · exact perm_of_halves rows (halves.symm.trans parsed)
  · rcases split with count | halves
    · rw [refused] at count
      cases count
      rfl
    · refine afterMatch_of_halves rows (fun kind => ?_) (halves.symm.trans refused)
      rcases both kind with ⟨piece, member, own⟩
      exact List.ne_nil_of_mem (List.mem_filter.mpr ⟨member, by simpa using own⟩)

/-- A query whose name is a keyword, and a scalar. -/
def keywordNamed : String := "query type \x7b a \x7d scalar S"

set_option maxRecDepth 100000 in
/-- The query and the scalar are read from their text. -/
theorem keywordNamed_parsed : ∃ document, parse keywordNamed = .ok document ∧
    (document.definitions.map Definition.key).Perm [(.executable, ⟨1, 1⟩), (.typeSystem, ⟨1, 18⟩)] := by
  have query : Recognized .executable "query type \x7b a \x7d".toList " scalar S".toList :=
    ⟨extent_of_rest (by decide +kernel) (by decide +kernel) (by decide +kernel),
      by decide +kernel, by decide +kernel, by decide +kernel, by decide +kernel⟩
  have scalar : Recognized .typeSystem "scalar S".toList [] :=
    ⟨extent_of_rest (by decide +kernel) (by decide +kernel) (by decide +kernel),
      by decide +kernel, by decide +kernel, by decide +kernel, by decide +kernel⟩
  have row : Row Recognized 0 keywordNamed.toList _ :=
    .next .nil query (.next (.blank rfl .nil) scalar (.done rfl))
  have both : ∀ kind, ∃ piece ∈ [Piece.mk .executable 0 "query type \x7b a \x7d".toList,
      ⟨.typeSystem, 17, "scalar S".toList⟩], piece.kind = kind := by
    intro kind
    cases kind
    · exact ⟨_, List.mem_cons_self, rfl⟩
    · exact ⟨_, List.mem_cons_of_mem _ List.mem_cons_self, rfl⟩
  have read : (parse keywordNamed).isOk := by decide +kernel
  cases parsed : parse keywordNamed with
  | error problem =>
      rw [parsed] at read
      cases read
  | ok document =>
      have perm := (parse_of_recognized row both (by decide +kernel)).2.2.1 document parsed
      exact ⟨document, rfl, perm⟩

/-- A query with a directive whose name is a keyword, and a scalar. -/
def keywordDirected : String := "query Q @type \x7b a \x7d scalar S"

set_option maxRecDepth 100000 in
/-- The query is broken at its directive, and the text is refused for its syntax. -/
theorem keywordDirected_broken :
    (∃ query scalar : Piece, Row Extent 0 keywordDirected.toList [query, scalar] ∧
      query.kind = .executable ∧ scalar.kind = .typeSystem ∧
      ¬query.text <+: ((ofText keywordDirected.toList).half .executable).drop query.offset) ∧
    (∀ lexeme ∈ lexemes keywordDirected.toList, Regular lexeme) ∧
    parse keywordDirected = .error (.unreadable (.noMatch ⟨1, 29⟩)) := by
  have query : Extent .executable "query Q @type \x7b a \x7d".toList " scalar S".toList :=
    extent_of_rest (by decide +kernel) (by decide +kernel) (by decide +kernel)
  have scalar : Extent .typeSystem "scalar S".toList [] :=
    extent_of_rest (by decide +kernel) (by decide +kernel) (by decide +kernel)
  refine ⟨⟨_, _, .next .nil query (.next (.blank rfl .nil) scalar (.done rfl)), rfl, rfl, ?_⟩, ?_, ?_⟩
  · decide +kernel
  · decide +kernel
  · have refused : (parse keywordDirected).map (fun _ => ()) =
        .error (.unreadable (.noMatch ⟨1, 29⟩)) := by decide +kernel
    cases parsed : parse keywordDirected with
    | ok document =>
        rw [parsed] at refused
        cases refused
    | error violation =>
        rw [parsed] at refused
        cases refused
        rfl

end Document

end PreviewLint
