import PreviewLint.Proofs.GraphQL.Context

/-!
# The extent of a definition

A definition is read from a text up to its last character, and maybe over the blanks after it.
`Spans` says where it ends, and that its units end there. What is read from one text is then
read from another one that goes on differently after the last character.
-/

namespace PreviewLint.GraphQL

open Peg Outline

/-- A text that begins with the keyword of a definition without a body. -/
def Bodiless (text : List Char) : Prop :=
  ∃ opening : Opening, opening.keyword ∈ ["scalar", "union", "directive"] ∧ opening.Heads text

/-- A definition is read from `front ++ final :: after` up to its last character `final`. -/
structure Spans (kind : Kind) (front : List Char) (final : Char) (after : List Char) : Prop where
  solid : grammar.afterBlanks (front ++ final :: after) = front ++ final :: after
  reads : ∃ rest, (rule kind.definition).Reads grammar .spaced (front ++ final :: after) (some rest) ∧
    (rest = after ∨ rest = grammar.afterBlanks after)
  unit : isClosing final ∧ Walk 0 (front ++ final :: after) 1 (final :: after) ∨
    isPlain final ∧ Walk 0 (front ++ final :: after) 0 (final :: after)
  final_mem : final = '}' ∨ kind = .typeSystem ∧ final ∈ nameParts ++ [')']
  /-- Only a location of a directive may touch the keyword that follows it. -/
  touches : isNamePart final → after.head?.any isNamePart →
    final.isUpper ∧ ∃ opening : Opening, opening.keyword = "directive" ∧
      opening.Heads (front ++ final :: after)

/-- A text that may follow a definition, of which its last character and its kind are known. -/
structure Follows (final : Char) (bodiless : Prop) (after : List Char) : Prop where
  begins : grammar.afterBlanks after = [] ∨
    ∃ word ∈ definitionBeginnings, word.toList <+: grammar.afterBlanks after
  brace : "\x7b".toList <+: grammar.afterBlanks after → final = '}' ∨ bodiless

theorem exists_final_executable {text rest : List Char} (solid : grammar.afterBlanks text = text)
    (reads : (rule .executableDefinition).Reads grammar .spaced text (some rest)) :
    Closes ['}'] true 0 text 0 rest := by
  have reading : rest.length < text.length := by
    refine Nat.lt_of_not_le fun still => ?_
    have empty := orderly.nullable_of_reads reads still
    cases empty
  rcases closes_of_reads reads rfl 0 closing_executableDefinition with rfl | same | closes
  · omega
  · rw [gap_of_solid solid] at same
    subst same
    omega
  · exact closes

/-- A form is read up to its last character, where the form allows it. -/
theorem exists_final {form : List (Peg Rule)} (member : form ∈ typeSystemForms) {text rest : List Char}
    (solid : grammar.afterBlanks text = text)
    (reads : (row form).Reads grammar .spaced text (some rest)) :
    ∃ opening, Opening.ofParts? form = some opening ∧
      Closes (formEnds opening) (opening.keyword != "directive") 0 text 0 rest := by
  have checked := closing_typeSystemForms form member
  cases found : Opening.ofParts? form with
  | none => simp [found] at checked
  | some opening =>
      rw [found, Option.any_some] at checked
      simp only [Bool.and_eq_true, decide_eq_true_eq, Bool.not_eq_true'] at checked
      obtain ⟨⟨ends, effective⟩, reading⟩ := checked
      refine ⟨opening, rfl, ?_⟩
      rcases closes_of_reads reads effective 0 ends with same | same | closes
      · subst same
        rw [orderly.nullable_of_reads reads (Nat.le_refl _)] at reading
        cases reading
      · rw [gap_of_solid solid] at same
        subst same
        rw [orderly.nullable_of_reads reads (Nat.le_refl _)] at reading
        cases reading
      · exact closes

section FormEnds

variable {opening : Opening} {final : Char}

theorem mem_of_mem_formEnds (member : final ∈ formEnds opening) :
    final = '}' ∨ final ∈ nameParts ++ [')'] := by
  rw [formEnds] at member
  split at member
  · have capitals : "ABCDEFGHIJKLMNOPQRSTUVWXYZ".toList ⊆ nameParts ++ [')'] := by decide +kernel
    exact Or.inr (capitals member)
  · simp only [List.mem_append, List.mem_cons, List.not_mem_nil, or_false] at member ⊢
    rcases member with part | rfl | rfl
    · exact Or.inr (Or.inl part)
    · exact Or.inr (Or.inr rfl)
    · exact Or.inl rfl

theorem isUpper_of_mem_formEnds (directive : opening.keyword = "directive")
    (member : final ∈ formEnds opening) : final.isUpper := by
  have capitals : "ABCDEFGHIJKLMNOPQRSTUVWXYZ".toList.all Char.isUpper := by decide +kernel
  rw [formEnds, if_pos directive] at member
  exact List.all_eq_true.mp capitals final member

end FormEnds

theorem exists_spans {kind : Kind} {text rest : List Char} (solid : grammar.afterBlanks text = text)
    (reads : (rule kind.definition).Reads grammar .spaced text (some rest)) :
    ∃ front final after, text = front ++ final :: after ∧ Spans kind front final after ∧
      (rest = after ∨ rest = grammar.afterBlanks after) := by
  have extent : ∃ final after,
      (final = '}' ∨ kind = .typeSystem ∧ final ∈ nameParts ++ [')']) ∧
      (rest = after ∨ rest = grammar.afterBlanks after) ∧
      (isNamePart final → after.head?.any isNamePart → final.isUpper ∧
        ∃ opening : Opening, opening.keyword = "directive" ∧ opening.Heads text) ∧
      (isClosing final ∧ Walk 0 text 1 (final :: after) ∨
        isPlain final ∧ Walk 0 text 0 (final :: after)) := by
    cases kind with
    | executable =>
        rcases exists_final_executable solid reads with ⟨final, after, member, ends, _, unit⟩
        have brace := List.mem_singleton.mp member
        subst brace
        refine ⟨_, after, Or.inl rfl, ends, fun part => ?_, unit⟩
        cases part
    | typeSystem =>
        rcases (reads_typeSystemDefinition_iff solid).mp reads with ⟨form, listed, formReads⟩
        rcases exists_final listed solid formReads with
          ⟨opening, found, final, after, member, ends, stops, unit⟩
        refine ⟨final, after, (mem_of_mem_formEnds member).imp_right (⟨rfl, ·⟩), ends, fun part next => ?_, unit⟩
        by_cases directive : opening.keyword = "directive"
        · refine ⟨isUpper_of_mem_formEnds directive member, opening, directive, ?_⟩
          exact heads_of_reads found solid formReads
        · have stopped := stops (bne_iff_ne.mpr directive) part
          rw [next] at stopped
          cases stopped
  rcases extent with ⟨final, after, final_mem, ends, touches, unit⟩
  have suffix : final :: after <:+ text := by
    rcases unit with ⟨_, walk⟩ | ⟨_, walk⟩
    · exact walk.suffix
    · exact walk.suffix
  rcases suffix with ⟨front, rfl⟩
  exact ⟨front, final, after, rfl, ⟨solid, ⟨rest, reads, ends⟩, unit, final_mem, touches⟩, ends⟩

/-! ## Other contexts -/

namespace Spans

variable {kind : Kind} {front : List Char} {final : Char} {first second : List Char}

theorem isSolid_final (spans : Spans kind front final first) : isSolid final ∧ final ≠ '"' := by
  have checked : ('}' :: (nameParts ++ [')'])).all fun character =>
      isSolid character && character != '"' := by decide +kernel
  simp only [List.all_eq_true, Bool.and_eq_true, bne_iff_ne] at checked
  apply checked
  rcases spans.final_mem with rfl | ⟨_, member⟩
  · exact List.mem_cons_self
  · exact List.mem_cons_of_mem _ member

/-- The units of the definition are units before another text, if its strings are strings there. -/
theorem common (spans : Spans kind front final first)
    (strings : ∀ unit rest depth, Walk 0 (front ++ final :: first) depth (unit ++ (rest ++ first)) →
      (rule .string).Reads grammar .joined (unit ++ (rest ++ first)) (some (rest ++ first)) →
      (rule .string).Reads grammar .joined (unit ++ (rest ++ second)) (some (rest ++ second))) :
    Common first second 0 (front ++ [final]) := by
  have inside : ∃ head ∈ [final].head?, isLineEnd head = false := by
    refine ⟨final, rfl, Bool.eq_false_iff.mpr fun ends => ?_⟩
    have unblank := (isSolid_iff.mp spans.isSolid_final.1).1
    rw [isBlank_of_isLineEnd ends] at unblank
    cases unblank
  rcases spans.unit with ⟨closes, walk⟩ | ⟨plain, walk⟩
  · exact Common.of_walk walk (.closing closes .nil) inside strings
  · exact Common.of_walk walk (.plain plain .nil) inside strings

/-- A definition that ends with a brace is read in the same way before every definition. -/
theorem reads_of_brace (spans : Spans kind front '}' first)
    (units : Common first second 0 (front ++ ['}'])) {bodiless : Prop}
    (follows : Follows '}' bodiless first) (follows' : Follows '}' bodiless second) :
    ∃ rest, (rule kind.definition).Reads grammar .spaced (front ++ '}' :: second) (some rest) ∧
      (rest = second ∨ rest = grammar.afterBlanks second) := by
  have touches : ∀ after : List Char, ∀ next ∈ after.head?, braceBorder.allows '}' next :=
    fun after next _ => rfl
  let seam : Seam braceBorder := {
    final := '}', first, second
    final_mem := List.mem_cons_self
    final_solid := rfl
    final_ne_quote := by decide
    fits := ⟨touches first, follows.begins⟩
    fits' := ⟨touches second, follows'.begins⟩ }
  have spot : seam.Spot 0 false (front ++ ['}'] ++ first) (front ++ ['}'] ++ second) :=
    .ahead (by simp; rfl) units
  rcases spans.reads with ⟨rest, reads, ends⟩
  have carries : seam.Carries (.rule kind.definition) :=
    Seam.carries_of_tame (by cases kind <;> rfl) (tame_definition kind)
  rw [List.append_assoc, List.append_assoc] at spot
  exact carries spot reads ends

/-- The text begins with the same character in every context. -/
theorem solid_before (spans : Spans kind front final first) (second : List Char) :
    grammar.afterBlanks (front ++ final :: second) = front ++ final :: second := by
  have solid := spans.solid
  cases front with
  | nil => exact afterBlanks_solid (isSolid_of_afterBlanks_eq solid)
  | cons head front => exact afterBlanks_solid (isSolid_of_afterBlanks_eq solid)

section Open

variable {opening : Opening} {bodiless : Prop}

theorem begins_openBorder (follows : Follows final bodiless first) (open_end : final ≠ '}')
    (known : bodiless → opening.keyword ∈ ["scalar", "union", "directive"]) :
    grammar.afterBlanks first = [] ∨
      ∃ word ∈ (openBorder opening).follows, word.toList <+: grammar.afterBlanks first := by
  refine follows.begins.imp_right ?_
  rintro ⟨word, member, begins⟩
  refine ⟨word, ?_, begins⟩
  rw [openBorder]
  dsimp only
  split
  · exact member
  · next bodied =>
      rw [List.mem_filter, bne_iff_ne]
      refine ⟨member, ?_⟩
      rintro rfl
      have without := known ((follows.brace begins).resolve_left open_end)
      exact bodied (List.contains_iff_mem.mpr without)

/-- A keyword begins with a small letter. -/
theorem isLower_of_begins (follows : Follows final bodiless first) {next : Char}
    (head : next ∈ first.head?) (part : isNamePart next) : next.isLower := by
  have lower : ∀ word ∈ definitionBeginnings,
      word.toList.head?.any fun letter => !isNamePart letter || letter.isLower := by
    decide +kernel
  cases first with
  | nil => cases head
  | cons other first =>
      cases head
      have solid : grammar.afterBlanks (next :: first) = next :: first :=
        afterBlanks_solid (isSolid_of_isNamePart part)
      have begins := follows.begins
      rw [solid] at begins
      rcases begins with none | ⟨word, member, begins⟩
      · cases none
      · have small := lower word member
        cases letters : word.toList with
        | nil =>
            rw [letters] at small
            cases small
        | cons letter more =>
            rw [letters] at begins small
            have same := (List.cons_prefix_cons.mp begins).1
            rw [List.head?_cons, Option.any_some, same, part] at small
            exact small

/-- Where no name goes on, every text may stand next to the definition. -/
theorem allows_of_apart (border : Border) (apart : isNamePart final → first.head?.any isNamePart = false) :
    ∀ next ∈ first.head?, border.allows final next := by
  intro next head
  rw [Border.allows, Bool.or_eq_true, Bool.not_eq_true']
  left
  cases part : isNamePart final with
  | false => rfl
  | true =>
      have stops := apart part
      rw [Option.mem_def.mp head] at stops
      exact stops

/-- Only the keyword after a location of a directive may touch the definition. -/
theorem allows_open (spans : Spans kind front final first) (follows : Follows final bodiless first)
    (keyword_eq : ∀ {other : Opening}, other.keyword ∈ typeSystemKeywords →
      other.Heads (front ++ final :: first) → opening.keyword = other.keyword) :
    ∀ next ∈ first.head?, (openBorder opening).allows final next := by
  intro next head
  rw [Border.allows, Bool.or_eq_true, Bool.not_eq_true']
  cases both : isNamePart final && isNamePart next with
  | false => exact Or.inl rfl
  | true =>
      obtain ⟨part, nextPart⟩ := Bool.and_eq_true_iff.mp both
      have goesOn : first.head?.any isNamePart := by
        rw [Option.mem_def.mp head]
        exact nextPart
      rcases spans.touches part goesOn with ⟨upper, other, directive, otherHeads⟩
      have same := keyword_eq (directive ▸ by decide) otherHeads
      rw [directive] at same
      have lower := isLower_of_begins follows head nextPart
      simp [openBorder, same, upper, lower]

end Open

/-- A definition that does not end with a brace is read in the same way before every definition. -/
theorem reads_of_form (spans : Spans .typeSystem front final first)
    (member : final ∈ nameParts ++ [')']) (units : Common first second 0 (front ++ [final]))
    (follows : Follows final (Bodiless (front ++ final :: first)) first)
    (follows' : Follows final (Bodiless (front ++ final :: first)) second)
    (apart : isNamePart final → second.head?.any isNamePart = false) :
    ∃ rest, (rule .typeSystemDefinition).Reads grammar .spaced (front ++ final :: second) (some rest) ∧
      (rest = second ∨ rest = grammar.afterBlanks second) := by
  rcases spans.reads with ⟨rest, reads, ends⟩
  rcases (reads_typeSystemDefinition_iff spans.solid).mp reads with ⟨form, listed, formReads⟩
  rcases exists_opening listed with ⟨opening, found, keyword⟩
  have settled := settles_typeSystemForms form listed
  rw [found, Option.any_some] at settled
  have heads := heads_of_reads found spans.solid formReads
  have open_end : final ≠ '}' := by
    rintro rfl
    revert member
    decide +kernel
  -- The text has one opening, whichever of its descriptions is looked at.
  have keyword_eq : ∀ {other : Opening}, other.keyword ∈ typeSystemKeywords →
      other.Heads (front ++ final :: first) → opening.keyword = other.keyword := by
    intro other known otherHeads
    have same := key_eq_of_heads spans.solid keyword known heads otherHeads
    exact congrArg Prod.snd same
  have bodiless : Bodiless (front ++ final :: first) →
      opening.keyword ∈ ["scalar", "union", "directive"] := by
    rintro ⟨other, without, otherHeads⟩
    have listed : ∀ word ∈ ["scalar", "union", "directive"], word ∈ typeSystemKeywords := by decide
    rw [keyword_eq (listed _ without) otherHeads]
    exact without
  let seam : Seam (openBorder opening) := {
    final, first, second
    final_mem := member
    final_solid := spans.isSolid_final.1
    final_ne_quote := spans.isSolid_final.2
    fits := ⟨spans.allows_open follows keyword_eq, begins_openBorder follows open_end bodiless⟩
    fits' := ⟨allows_of_apart _ apart, begins_openBorder follows' open_end bodiless⟩ }
  have spot : seam.Spot 0 false (front ++ [final] ++ first) (front ++ [final] ++ second) :=
    .ahead (by simp; rfl) units
  have carries : seam.Carries (row form) := carries_of_settlesForm settled
  rw [List.append_assoc, List.append_assoc] at spot
  rcases carries spot formReads ends with ⟨rest', reads', ends'⟩
  have solid' := spans.solid_before second
  exact ⟨rest', (reads_typeSystemDefinition_iff solid').mpr ⟨form, listed, reads'⟩, ends'⟩

/-- What is read up to the end of a definition is read before every text that may follow it. -/
theorem reads_before (spans : Spans kind front final first)
    (strings : ∀ unit rest depth, Walk 0 (front ++ final :: first) depth (unit ++ (rest ++ first)) →
      (rule .string).Reads grammar .joined (unit ++ (rest ++ first)) (some (rest ++ first)) →
      (rule .string).Reads grammar .joined (unit ++ (rest ++ second)) (some (rest ++ second)))
    (follows : Follows final (Bodiless (front ++ final :: first)) first)
    (follows' : Follows final (Bodiless (front ++ final :: first)) second)
    (apart : isNamePart final → second.head?.any isNamePart = false) :
    ∃ rest, (rule kind.definition).Reads grammar .spaced (front ++ final :: second) (some rest) ∧
      (rest = second ∨ rest = grammar.afterBlanks second) := by
  have units := spans.common strings
  rcases spans.final_mem with rfl | ⟨rfl, member⟩
  · exact spans.reads_of_brace units follows follows'
  · exact spans.reads_of_form member units follows follows' apart

end Spans

end PreviewLint.GraphQL
