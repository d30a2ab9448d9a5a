import PreviewLint.Proofs.GraphQL.Brackets

/-!
# How definitions end

Every match of a definition ends with one of a few characters, apart from blanks that are
skipped before a part that is missing. The characters are read off the grammar: `closing`
looks at the last part of an expression, and at the parts before it if that may be missing.
-/

namespace PreviewLint.GraphQL

open Peg

/-- The characters of names. -/
def nameParts : List Char :=
  "abcdefghijklmnopqrstuvwxyzABCDEFGHIJKLMNOPQRSTUVWXYZ0123456789_".toList

theorem mem_nameParts {character : Char} (part : isNamePart character) : character ∈ nameParts := by
  have small : ∀ code < 128, isNamePart (Char.ofNat code) → Char.ofNat code ∈ nameParts := by
    decide +kernel
  have same := Char.ofNat_toNat character
  have bound : character.toNat < 128 := by
    rw [isNamePart, isNameStart] at part
    delta Char.isAlpha Char.isUpper Char.isLower Char.isDigit at part
    simp only [Bool.or_eq_true, Bool.and_eq_true, decide_eq_true_eq, beq_iff_eq, ge_iff_le,
      UInt32.le_iff_toNat_le] at part
    change ((65 ≤ character.toNat ∧ character.toNat ≤ 90 ∨ 97 ≤ character.toNat ∧
      character.toNat ≤ 122) ∨ character = '_') ∨ 48 ≤ character.toNat ∧ character.toNat ≤ 57 at part
    rcases part with ((upper | lower) | rfl) | digit
    · omega
    · omega
    · decide
    · omega
  rw [← same] at part ⊢
  exact small _ bound part

/--
A walk that ends with one of some characters and with blanks after it. Where `strict` is set, a
character of a name ends the name.
-/
def Closes (last : List Char) (strict : Bool) (depth : Nat) (text : List Char) (final : Nat)
    (rest : List Char) : Prop :=
  ∃ character left, character ∈ last ∧ (rest = left ∨ rest = grammar.afterBlanks left) ∧
    (strict → isNamePart character → left.head?.any isNamePart = false) ∧
    (isClosing character ∧ Walk depth text (final + 1) (character :: left) ∨
      isPlain character ∧ Walk depth text final (character :: left))

namespace Closes

variable {last : List Char} {strict : Bool} {depth middle final : Nat} {text between rest : List Char}

theorem after (walk : Walk depth text middle between) (closes : Closes last strict middle between final rest) :
    Closes last strict depth text final rest := by
  rcases closes with ⟨character, left, member, ends, ended, ⟨closing, more⟩ | ⟨plain, more⟩⟩
  · exact ⟨character, left, member, ends, ended, Or.inl ⟨closing, walk.trans more⟩⟩
  · exact ⟨character, left, member, ends, ended, Or.inr ⟨plain, walk.trans more⟩⟩

theorem gap (closes : Closes last strict depth text final rest) (spacing : Spacing) :
    Closes last strict depth text final (grammar.gap spacing rest) := by
  rcases closes with ⟨character, left, member, ends, more⟩
  refine ⟨character, left, member, ?_, more⟩
  rw [Grammar.gap]
  split
  · right
    rcases ends with rfl | rfl
    · rfl
    · exact afterBlanks_afterBlanks left
  · exact ends

end Closes

theorem gap_gap (spacing : Spacing) (text : List Char) :
    grammar.gap spacing (grammar.gap spacing text) = grammar.gap spacing text := by
  unfold Grammar.gap
  split
  · exact afterBlanks_afterBlanks text
  · rfl

/-- What was read closes with one of some characters, unless it is nothing, or nothing but blanks. -/
def Concludes (last : List Char) (strict : Bool) (spacing : Spacing) (depth : Nat) (text : List Char)
    (final : Nat) (rest : List Char) : Prop :=
  rest = text ∨ rest = grammar.gap spacing text ∨ Closes last strict depth text final rest

/--
A reading concludes as its second part does. Where the second part reads nothing, it concludes
as the first part does, with blanks after it.
-/
theorem Concludes.trans {last : List Char} {strict : Bool} {spacing : Spacing}
    {depth middle final : Nat} {text between rest : List Char} (walk : Walk depth text middle between)
    (second : Concludes last strict spacing middle (grammar.gap spacing between) final rest)
    (first : rest = grammar.gap spacing between →
      middle = final ∧ Concludes last strict spacing depth text middle between) :
    Concludes last strict spacing depth text final rest := by
  have nothing : rest = grammar.gap spacing between →
      Concludes last strict spacing depth text final rest := by
    intro same
    rcases first same with ⟨rfl, rfl | rfl | closes⟩
    · exact Or.inr (Or.inl same)
    · rw [gap_gap] at same
      exact Or.inr (Or.inl same)
    · rw [same]
      exact Or.inr (Or.inr (closes.gap spacing))
  rcases second with same | same | closes
  · exact nothing same
  · rw [gap_gap] at same
    exact nothing same
  · exact Or.inr (Or.inr (closes.after (walk.trans (walk_gap spacing _ _))))

/--
Whether every match of an expression ends with one of some characters, unless it reads
nothing. `known` tells it of the rules.
-/
def closing (last : List Char) (strict : Bool) (known : Rule → Bool) : Peg Rule → Bool
  | .empty | .absent _ => true
  | .char _ => false
  | .word fixed =>
    fixed.toList.getLast?.any fun final =>
      last.contains final && (isClosing final || isPlain final) && !(strict && isNamePart final)
  | .rule called => known called
  | .seq first second =>
    closing last strict known second &&
      (closing last strict known first || !second.nullable mayBeEmpty)
  | .choice first second => closing last strict known first && closing last strict known second
  | .maybe body | .many body => closing last strict known body

/-- Whether every match of a rule ends with one of some characters, looked for in `depth` rules. -/
def ruleClosing (last : List Char) (strict : Bool) : Nat → Rule → Bool
  | 0, _ => false
  | depth + 1, called =>
    if called = .name then nameParts.all last.contains
    else called ≠ .string && closing last strict (ruleClosing last strict depth) (grammar.body called)

section Reads

variable {last : List Char} {strict : Bool}

theorem closes_word {fixed rest : List Char} {closed opened : Nat}
    (effective : wordEffect fixed = some (closed, opened)) (around : Nat)
    (ends : fixed.getLast?.any fun final =>
      last.contains final && (isClosing final || isPlain final) && !(strict && isNamePart final)) :
    Closes last strict (around + closed) (fixed ++ rest) (around + opened) rest := by
  cases found : fixed.getLast? with
  | none => simp [found] at ends
  | some final =>
      rw [found, Option.any_some] at ends
      simp only [Bool.and_eq_true, List.contains_iff_mem, Bool.or_eq_true, Bool.not_eq_true'] at ends
      obtain ⟨⟨member, unit⟩, ended⟩ := ends
      rcases List.getLast?_eq_some_iff.mp found with ⟨front, rfl⟩
      have stops : strict → isNamePart final → rest.head?.any isNamePart = false := by
        intro strictly part
        simp [strictly, part] at ended
      refine ⟨final, rest, member, Or.inl rfl, stops, ?_⟩
      unfold wordEffect at effective
      split at effective
      · next character same =>
          have none : front = [] := by
            have lengths := congrArg List.length same
            rw [List.length_append] at lengths
            exact List.length_eq_zero_iff.mp (by simpa using lengths)
          subst none
          cases same
          split at effective
          · next opens =>
              rcases unit with closes | plain
              · simp [not_isClosing_of_isOpening opens] at closes
              · simp [(isPlain_iff.mp plain).1] at opens
          · split at effective
            · next closes =>
                cases effective
                exact Or.inl ⟨closes, .refl⟩
            · split at effective
              · next plain =>
                  cases effective
                  exact Or.inr ⟨plain, .refl⟩
              · cases effective
      · split at effective
        · next plain =>
            cases effective
            have all := List.all_eq_true.mp plain
            refine Or.inr ⟨all final (by simp), ?_⟩
            rw [List.append_assoc]
            exact walk_plain fun character inside => all character (List.mem_append_left _ inside)
        · cases effective

theorem closes_name {spacing : Spacing} {text rest : List Char}
    (reads : (rule .name).Reads grammar spacing text (some rest)) (depth : Nat)
    (ends : nameParts.all last.contains) : Closes last strict depth text depth rest := by
  rcases reads_name_iff.mp reads with ⟨head, run, rfl, starts, parts, stops⟩
  have all := isNamePart_of_mem_name starts parts
  rcases List.eq_nil_or_concat (head :: run) with none | ⟨front, final, same⟩
  · cases none
  rw [List.concat_eq_append] at same
  have part := all final (by rw [same]; simp)
  have member := List.contains_iff_mem.mp (List.all_eq_true.mp ends final (mem_nameParts part))
  refine ⟨final, rest, member, Or.inl rfl, fun _ _ => stops, Or.inr ⟨isPlain_of_isNamePart part, ?_⟩⟩
  rw [← List.cons_append, same, List.append_assoc]
  refine walk_plain fun character inside => isPlain_of_isNamePart (all character ?_)
  rw [same]
  exact List.mem_append_left _ inside

/-- The body of a rule skips blanks only if the caller of the rule does. -/
theorem Concludes.rule {spacing : Spacing} {called : Rule} {text rest : List Char} {depth final : Nat}
    (inner : Concludes last strict (spacing.inside (grammar.spacing called)) depth text final rest) :
    Concludes last strict spacing depth text final rest := by
  rcases inner with same | same | closes
  · exact Or.inl same
  · cases kept : grammar.spacing called with
    | spaced =>
        rw [kept] at same
        exact Or.inr (Or.inl same)
    | joined | token =>
        rw [kept] at same
        exact Or.inl same
  · exact Or.inr (Or.inr closes)

/-- What an expression reads ends as its last parts do, unless it reads nothing. -/
theorem closes_of_reads {spacing : Spacing} {expression : Peg Rule} {text rest : List Char}
    {closed opened depth : Nat} (reads : expression.Reads grammar spacing text (some rest))
    (effective : effect expression = some (closed, opened)) (around : Nat)
    (ends : closing last strict (ruleClosing last strict depth) expression) :
    Concludes last strict spacing (around + closed) text (around + opened) rest := by
  generalize found : some rest = answer at reads
  induction reads generalizing rest closed opened around depth with
  | empty | maybe_none | many_none | absent =>
      cases found
      exact Or.inl rfl
  | char => cases ends
  | word =>
      cases found
      exact Or.inr (Or.inr (closes_word effective around ends))
  | @rule spacing called text answer body ih =>
      rcases effect_rule_eq_some effective with ⟨inner, rfl, rfl⟩
      cases depth with
      | zero => cases ends
      | succ depth =>
          simp only [closing, ruleClosing] at ends
          split at ends
          · next named =>
              subst named found
              exact Or.inr (Or.inr (closes_name (.rule body) around ends))
          · simp only [Bool.and_eq_true, decide_eq_true_eq] at ends
            exact .rule (ih (effect_body inner ends.1) around ends.2 found)
  | @seq spacing first second text middle answer before reads one other =>
      subst found
      rcases effect_seq_eq_some effective around with
        ⟨_, opened, closes, _, firstEffect, secondEffect, start, level, stop⟩
      simp only [closing, Bool.and_eq_true, Bool.or_eq_true, Bool.not_eq_true'] at ends
      have walk := walk_of_reads before firstEffect (around + (closes - opened))
      rw [level] at walk
      rw [start, stop]
      refine .trans walk (other secondEffect (around + (opened - closes)) ends.1 rfl) ?_
      rintro rfl
      -- The second part reads nothing, so it cannot be one that always reads something.
      have still := (walk_of_reads reads secondEffect (around + (opened - closes))).depth_eq_of_length_le
        (Nat.le_refl _)
      rcases ends.2 with firstEnds | reading
      · have concludes := one firstEffect (around + (closes - opened)) firstEnds rfl
        rw [level] at concludes
        exact ⟨still, concludes⟩
      · rw [orderly.nullable_of_reads reads (Nat.le_refl _)] at reading
        cases reading
  | choice_first _ ih =>
      rw [closing, Bool.and_eq_true] at ends
      exact ih (effect_choice_eq_some effective).1 around ends.1 found
  | choice_second _ _ _ ih =>
      rw [closing, Bool.and_eq_true] at ends
      exact ih (effect_choice_eq_some effective).2 around ends.2 found
  | maybe _ ih | many_last _ _ ih =>
      rcases effect_body_eq_some effective with ⟨balanced, rfl, rfl⟩
      exact ih balanced around ends found
  | many_more present _ _ one _ others =>
      rcases effect_body_eq_some effective with ⟨balanced, rfl, rfl⟩
      exact .trans (walk_of_reads present balanced around) (others effective around ends found)
        fun _ => ⟨rfl, one balanced around ends rfl⟩
  | char_refused | word_refused | seq_refused | absent_refused => cases found

end Reads

end PreviewLint.GraphQL
