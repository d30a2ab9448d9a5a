import PreviewLint.Proofs.GraphQL.Across
import PreviewLint.Proofs.GraphQL.Endings
import PreviewLint.Proofs.GraphQL.Forms

/-!
# Definitions in other contexts

A definition that is read from a text up to a place is read from every other text that has the
same units up to that place, whatever follows there: the end of the text, or another definition.
So it is read when the text behind it is cut off, or blanked.

A definition that ends with a brace is tame as a whole. For the other definitions the argument
goes along the parts of their forms: parts that might read on after the seam are followed by
parts that cannot be missing, and so they end before the seam.
-/

namespace PreviewLint.GraphQL

open Peg

namespace Seam

variable {border : Border}

/--
An expression that is read from both texts of a seam up to the seam, if it is read from the
first of them up to the seam.
-/
def Carries (seam : Seam border) (expression : Peg Rule) : Prop :=
  ∀ ⦃text other rest⦄, seam.Spot 0 false text other →
    expression.Reads grammar .spaced text (some rest) →
    rest = seam.first ∨ rest = grammar.afterBlanks seam.first →
    ∃ rest', expression.Reads grammar .spaced other (some rest') ∧
      (rest' = seam.second ∨ rest' = grammar.afterBlanks seam.second)

variable {seam : Seam border} {depth : Nat}

theorem length_lt_of_spot {text other : List Char} (spot : seam.Spot depth false text other) :
    seam.first.length < text.length := by
  rcases ahead_of_not_reached spot with ⟨before, some, _, rfl, _, _⟩
  have positive := List.length_pos_iff.mpr some
  rw [List.length_append]
  omega

theorem length_afterBlanks_le (text : List Char) :
    (grammar.afterBlanks text).length ≤ text.length :=
  (orderly.afterBlanks_suffix text).length_le

theorem length_le_of_rest {text rest : List Char} (ends : rest = text ∨ rest = grammar.afterBlanks text) :
    (grammar.afterBlanks text).length ≤ rest.length ∧ rest.length ≤ text.length := by
  have shorter := length_afterBlanks_le text
  rcases ends with rfl | rfl
  · exact ⟨shorter, Nat.le_refl _⟩
  · exact ⟨Nat.le_refl _, shorter⟩

theorem carries_of_tame {expression : Peg Rule} (effective : effect expression = some (0, 0))
    (tame : (profileOf border depth true expression).tame) : seam.Carries expression := by
  intro text other rest spot reads ends
  have start : seam.Spot (0 + 0) false text other := spot
  rcases across reads effective (fun _ => rfl) (Or.inr tame) start with ⟨_, reads', carried⟩
  cases carried with
  | @some _ rest' after =>
      refine ⟨rest', reads', ?_⟩
      generalize (profileOf border depth true expression).ends = reached at after
      cases after with
      | ahead final common =>
          have longer := length_lt_of_spot (.ahead final common)
          have shorter := (length_le_of_rest ends).2
          omega
      | here => exact Or.inl rfl
      | past => exact Or.inr rfl

/-- A tame part before parts that cannot be missing, or that read nothing after the seam. -/
theorem carries_seq {first second : Peg Rule} (effective : effect first = some (0, 0))
    (tame : (profileOf border depth true first).tame) (more : seam.Carries second)
    (guarded : second.nullable mayBeEmpty = false ∨ (profileOf border depth true second).stops) :
    seam.Carries (.seq first second) := by
  intro text other rest spot reads ends
  rcases reads_seq_iff.mp reads with ⟨middle, before, after⟩
  have start : seam.Spot (0 + 0) false text other := spot
  rcases across before effective (fun _ => rfl) (Or.inr tame) start with ⟨_, before', carried⟩
  cases carried with
  | @some _ middle' middleSpot =>
      rcases middleSpot.ahead_or_beyond with ahead | ⟨_, _, same, same'⟩
      · rcases more (ahead.gap .spaced) after ends with ⟨rest', after', ends'⟩
        exact ⟨rest', .seq before' after', ends'⟩
      · -- The first part has reached the seam.
        change second.Reads grammar .spaced (grammar.afterBlanks middle) (some rest) at after
        rw [same] at after
        rcases guarded with reading | stops
        · rw [orderly.nullable_of_reads after (length_le_of_rest ends).1] at reading
          cases reading
        · have answered := after.unique (reads_of_stops seam.fits.beyond stops)
          have after' : second.Reads grammar .spaced (grammar.gap .spaced middle') _ :=
            same' ▸ reads_of_stops seam.fits'.beyond stops
          rw [Profile.answer] at answered after'
          cases idle : (profileOf border depth true second).idle with
          | false =>
              rw [idle] at answered
              cases answered
          | true =>
              rw [idle] at after'
              exact ⟨_, .seq before' after', Or.inr same'⟩

/-- A name before parts that cannot be missing ends before the seam. -/
theorem carries_name_seq {second : Peg Rule} (more : seam.Carries second)
    (reading : second.nullable mayBeEmpty = false) : seam.Carries (.seq (.rule .name) second) := by
  intro text other rest spot reads ends
  rcases reads_seq_iff.mp reads with ⟨middle, before, after⟩
  have ahead : seam.first.length < middle.length := by
    refine Decidable.byContradiction fun reached => ?_
    rcases ahead_of_not_reached spot with ⟨start, some, final, rfl, rfl, common⟩
    rcases reads_name_iff.mp before with ⟨head, run, same, starts, parts, stops⟩
    have cut : start ++ seam.first = (head :: run) ++ middle := same
    rcases exists_middle cut (by omega) with ⟨inside, split, first⟩
    have shorter : (grammar.afterBlanks seam.first).length ≤ rest.length := (length_le_of_rest ends).1
    have bound : (grammar.gap .spaced middle).length ≤ (grammar.afterBlanks seam.first).length := by
      cases inside with
      | nil =>
          rw [List.nil_append] at first
          rw [first]
          exact Nat.le_refl _
      | cons next inside =>
          -- The name goes on after the seam, where no blanks stand then.
          have part : isNamePart next := by
            apply isNamePart_of_mem_name starts parts
            rw [split]
            exact List.mem_append_right _ List.mem_cons_self
          rw [first, List.cons_append, afterBlanks_solid (isSolid_of_isNamePart part)]
          have gap := length_afterBlanks_le middle
          simp only [List.length_cons, List.length_append]
          exact Nat.le_trans gap (by omega)
    rw [orderly.nullable_of_reads after (by omega)] at reading
    cases reading
  rcases spot.name_of_lt before ahead with ⟨middle', before', middleSpot⟩
  rcases more (middleSpot.gap .spaced) after ends with ⟨rest', after', ends'⟩
  exact ⟨rest', .seq before' after', ends'⟩

section Optional

variable {body others : Peg Rule}

/--
A part that may be missing and begins with a keyword. Where the keyword stands, what follows the
part reads nothing, so that the part cannot be missing there.
-/
theorem carries_maybe_seq (keyword : String) (present : seam.Carries (.seq body others)) (missing : seam.Carries others)
    (effective : wordEffect keyword.toList = some (0, 0)) (keeps : border.keeps keyword.toList)
    (refused : ∀ text, ¬keyword.toList <+: text → body.Reads grammar .spaced text none)
    (stays : ∀ text rest, keyword.toList <+: text →
      others.Reads grammar .spaced (grammar.gap .spaced text) (some rest) → rest = text) :
    seam.Carries (.seq (.maybe body) others) := by
  intro text other rest spot reads ends
  rcases reads_seq_iff.mp reads with ⟨middle, before, after⟩
  rcases reads_maybe_iff.mp before with found | ⟨_, rfl⟩
  · rcases present spot (.seq found after) ends with ⟨rest', reads', ends'⟩
    rcases reads_seq_iff.mp reads' with ⟨middle', found', after'⟩
    exact ⟨rest', .seq (.maybe found') after', ends'⟩
  · by_cases begins : keyword.toList <+: middle
    · have same := stays middle rest begins after
      have longer := length_lt_of_spot spot
      have shorter := (length_le_of_rest ends).2
      rw [same] at shorter
      omega
    · have start : seam.Spot (0 + 0) false middle other := spot
      have begins' := start.word_refused effective (Or.inr keeps) begins
      rcases missing (spot.gap .spaced) after ends with ⟨rest', after', ends'⟩
      exact ⟨rest', .seq (.maybe_none (refused other begins')) after', ends'⟩

/-- The same part with what follows it, or without. -/
theorem carries_choice (both : seam.Carries (.seq (.maybe body) others)) (alone : seam.Carries body)
    (stops : (profileOf border depth true others).stops)
    (active : (profileOf border depth true others).idle = false) :
    seam.Carries (.choice (.seq (.maybe body) others) body) := by
  intro text other rest spot reads ends
  rcases reads_choice_iff.mp reads with chosen | ⟨_, chosen⟩
  · rcases both spot chosen ends with ⟨rest', reads', ends'⟩
    exact ⟨rest', .choice_first reads', ends'⟩
  · rcases alone spot chosen ends with ⟨rest', reads', ends'⟩
    refine ⟨rest', .choice_second (.seq (.maybe reads') ?_) reads', ends'⟩
    have gap_eq : grammar.gap .spaced rest' = grammar.afterBlanks seam.second := by
      rcases ends' with rfl | rfl
      · rfl
      · exact afterBlanks_afterBlanks _
    have refused : others.Reads grammar .spaced (grammar.afterBlanks seam.second) _ :=
      reads_of_stops seam.fits'.beyond stops
    rw [Profile.answer, active] at refused
    rw [gap_eq]
    exact refused

end Optional

end Seam

/-! ## Forms -/

/-- Whether a part before others is read up to its end, whatever follows the seam. -/
def leads (border : Border) (depth : Nat) (first : Peg Rule) (others : List (Peg Rule)) : Bool :=
  let rest := row others
  !others.isEmpty &&
    (effect first = some (0, 0) && (profileOf border depth true first).tame &&
        (!rest.nullable mayBeEmpty || (profileOf border depth true rest).stops) ||
      (match first with
        | .rule .name => !rest.nullable mayBeEmpty
        | _ => false))

/-- Whether parts in a row are read up to a seam, whatever follows it. -/
def settles (border : Border) (depth : Nat) : List (Peg Rule) → Bool
  | [] => false
  | first :: others =>
    effect (row (first :: others)) = some (0, 0) &&
        (profileOf border depth true (row (first :: others))).tame ||
      leads border depth first others && settles border depth others

/-- Whether the same holds of parts that interfaces may precede. -/
def settlesAfterInterfaces (border : Border) (depth : Nat) (others : List (Peg Rule)) : Bool :=
  !others.isEmpty && border.keeps "implements".toList &&
    settles border depth (parts (grammar.body .implementsInterfaces) ++ others) &&
    settles border depth others &&
    (beginnings (ruleBeginnings 5) (row others)).any fun words => words.all fun word =>
      !word.toList.isPrefixOf "implements".toList && !"implements".toList.isPrefixOf word.toList

/-- Whether the parts of a form are read up to a seam, whatever follows it. -/
def settlesForm (border : Border) (depth : Nat) : List (Peg Rule) → Bool
  | [] => false
  | [.choice (.seq (.maybe (.rule .implementsInterfaces)) added) (.rule .implementsInterfaces)] =>
    settlesAfterInterfaces border depth [added] &&
      settles border depth (parts (grammar.body .implementsInterfaces)) &&
      (profileOf border depth true added).stops && !(profileOf border depth true added).idle
  | .maybe (.rule .implementsInterfaces) :: others => settlesAfterInterfaces border depth others
  | first :: others =>
    settles border depth (first :: others) ||
      leads border depth first others && settlesForm border depth others

section Settles

variable {border : Border} {seam : Seam border} {depth : Nat}

theorem Seam.Carries.congr {first second : Peg Rule} (carries : seam.Carries first)
    (alike : Alike .spaced first second) : seam.Carries second := by
  intro text other rest spot reads ends
  rcases carries spot ((alike _ _).mpr reads) ends with ⟨rest', reads', ends'⟩
  exact ⟨rest', (alike _ _).mp reads', ends'⟩

theorem carries_of_leads {first : Peg Rule} {others : List (Peg Rule)}
    (leading : leads border depth first others) (more : seam.Carries (row others)) :
    seam.Carries (row (first :: others)) := by
  simp only [leads, Bool.or_eq_true, Bool.and_eq_true, decide_eq_true_eq, Bool.not_eq_true',
    List.isEmpty_eq_false_iff] at leading
  rcases leading with ⟨some, ⟨⟨effective, tame⟩, guarded⟩ | named⟩
  · rw [row_cons some]
    exact Seam.carries_seq effective tame more guarded
  · rw [row_cons some]
    split at named
    · exact Seam.carries_name_seq more (by simpa using named)
    · cases named

theorem carries_of_settles {listed : List (Peg Rule)} (settled : settles border depth listed) :
    seam.Carries (row listed) := by
  induction listed with
  | nil => cases settled
  | cons first others ih =>
      simp only [settles, Bool.or_eq_true, Bool.and_eq_true, decide_eq_true_eq] at settled
      rcases settled with ⟨effective, tame⟩ | ⟨leading, later⟩
      · exact Seam.carries_of_tame effective tame
      · exact carries_of_leads leading (ih later)

theorem alike_rule {called : Rule} (spaced : grammar.spacing called = .spaced) :
    Alike .spaced (row (parts (grammar.body called))) (.rule called) := by
  intro text answer
  rw [alike_parts _ text answer, reads_rule_iff, spaced]
  rfl

theorem carries_after_interfaces {others : List (Peg Rule)}
    (settled : settlesAfterInterfaces border depth others) :
    seam.Carries (row (.maybe (.rule .implementsInterfaces) :: others)) := by
  simp only [settlesAfterInterfaces, Bool.and_eq_true, Bool.not_eq_true',
    List.isEmpty_eq_false_iff] at settled
  obtain ⟨⟨⟨⟨some, keeps⟩, present⟩, missing⟩, apart⟩ := settled
  rw [row_cons some]
  have interfaces_alike : Alike .spaced _ (.rule .implementsInterfaces) := alike_rule rfl
  apply Seam.carries_maybe_seq "implements" ?_ (carries_of_settles missing) (by decide) keeps
  · intro text unnamed
    exact .rule (.seq_refused (.seq_refused (.seq_refused (.word_refused unnamed))))
  · intro text rest begins reads
    have solid : grammar.afterBlanks text = text := by
      rcases begins with ⟨more, rfl⟩
      rfl
    rw [gap_of_solid solid] at reads
    cases known : beginnings (ruleBeginnings 5) (row others) with
    | none => simp [known] at apart
    | some words =>
        rw [known, Option.any_some, List.all_eq_true] at apart
        rcases begins_of_reads solid reads known with same | ⟨word, member, wordBegins⟩
        · exact same
        · have incomparable := apart word member
          simp only [Bool.and_eq_true, Bool.not_eq_true'] at incomparable
          rcases List.prefix_or_prefix_of_prefix begins wordBegins with shorter | longer
          · rw [List.isPrefixOf_iff_prefix.mpr shorter] at incomparable
            cases incomparable.2
          · rw [List.isPrefixOf_iff_prefix.mpr longer] at incomparable
            cases incomparable.1
  · have whole : seam.Carries _ := carries_of_settles present
    have split := whole.congr (alike_row_append (parts_ne_nil _) some)
    exact split.congr (alike_seq interfaces_alike fun _ _ => Iff.rfl)

theorem carries_of_settlesForm {form : List (Peg Rule)} (settled : settlesForm border depth form) :
    seam.Carries (row form) := by
  fun_induction settlesForm border depth form with
  | case1 => cases settled
  | case2 added =>
      simp only [Bool.and_eq_true, Bool.not_eq_true'] at settled
      obtain ⟨⟨⟨optional, alone⟩, stops⟩, active⟩ := settled
      have interfaces : seam.Carries _ := carries_of_settles alone
      apply Seam.carries_choice (carries_after_interfaces optional) ?_ stops active
      exact interfaces.congr (alike_rule rfl)
  | case3 others => exact carries_after_interfaces settled
  | case4 first others _ _ ih =>
      rw [Bool.or_eq_true, Bool.and_eq_true] at settled
      rcases settled with whole | ⟨leading, later⟩
      · exact carries_of_settles whole
      · exact carries_of_leads leading (ih later)

end Settles

/-! ## Borders of definitions -/

/-- The texts with which definitions begin. -/
def definitionBeginnings : List String := executableBeginnings ++ typeSystemBeginnings

/-- The border after a definition that ends with a brace. -/
def braceBorder : Border := ⟨['}'], definitionBeginnings, false⟩

/--
The border after a definition that does not end with a brace. A brace may follow it only if the
definition has no body, and a keyword touches it only after the location of a directive.
-/
def openBorder (opening : Opening) : Border where
  last := nameParts ++ [')']
  follows :=
    if ["scalar", "union", "directive"].contains opening.keyword then definitionBeginnings
    else definitionBeginnings.filter (· != "\x7b")
  glued := opening.keyword == "directive"

theorem tame_definition (kind : Outline.Kind) :
    (profileOf braceBorder 9 true (.rule kind.definition)).tame := by
  cases kind <;> decide +kernel

theorem settles_typeSystemForms : ∀ form ∈ typeSystemForms,
    (Opening.ofParts? form).any fun opening => settlesForm (openBorder opening) 9 form := by
  decide +kernel

/-- The characters with which a form ends. -/
def formEnds (opening : Opening) : List Char :=
  if opening.keyword = "directive" then "ABCDEFGHIJKLMNOPQRSTUVWXYZ".toList
  else nameParts ++ [')', '}']

theorem closing_typeSystemForms : ∀ form ∈ typeSystemForms,
    (Opening.ofParts? form).any fun opening =>
      closing (formEnds opening) (opening.keyword != "directive")
        (ruleClosing (formEnds opening) (opening.keyword != "directive") 9) (row form) &&
      decide (effect (row form) = some (0, 0)) && !(row form).nullable mayBeEmpty := by
  decide +kernel

theorem closing_executableDefinition :
    closing ['}'] true (ruleClosing ['}'] true 9) (.rule .executableDefinition) := by
  decide +kernel

end PreviewLint.GraphQL
