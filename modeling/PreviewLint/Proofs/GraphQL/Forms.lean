import Mathlib.Data.List.Nodup
import PreviewLint.Proofs.GraphQL.Beginnings
import PreviewLint.Proofs.GraphQL.Strings

/-!
# The forms of type-system definitions

A type-system definition has one of many forms, each a sequence of parts. The forms are read
off the grammar. Each begins in a way of its own, with a keyword after a description or after
the word `extend`, so that of all forms at most one matches a text, and the order in which the
grammar tries them does not matter.
-/

namespace PreviewLint.GraphQL

open Peg

/-! ## Alternatives -/

/-- The alternatives among which an expression chooses. `known` gives those of the rules. -/
def forms (known : Rule → List (Peg Rule)) : Peg Rule → List (Peg Rule)
  | .choice first second => forms known first ++ forms known second
  | .rule called => known called
  | expression => [expression]

/-- The alternatives among which a rule chooses, looked for in `depth` rules at most. -/
def ruleForms : Nat → Rule → List (Peg Rule)
  | 0, called => [.rule called]
  | depth + 1, called =>
    if grammar.spacing called = .spaced then forms (ruleForms depth) (grammar.body called)
    else [.rule called]

section Forms

variable {text rest : List Char}

theorem exists_form_known {known : Rule → List (Peg Rule)}
    (rules : ∀ {called rest}, (rule called).Reads grammar .spaced text (some rest) →
      ∃ form ∈ known called, form.Reads grammar .spaced text (some rest))
    {expression : Peg Rule} (reads : expression.Reads grammar .spaced text (some rest)) :
    ∃ form ∈ forms known expression, form.Reads grammar .spaced text (some rest) := by
  induction expression with
  | choice first second one other =>
      rcases reads_choice_iff.mp reads with chosen | ⟨_, chosen⟩
      · rcases one chosen with ⟨form, member, reads⟩
        exact ⟨form, List.mem_append_left _ member, reads⟩
      · rcases other chosen with ⟨form, member, reads⟩
        exact ⟨form, List.mem_append_right _ member, reads⟩
  | rule called => exact rules reads
  | _ => exact ⟨_, List.mem_singleton_self _, reads⟩

/-- What a rule reads, one of its alternatives reads. -/
theorem exists_form {depth : Nat} {called : Rule}
    (reads : (rule called).Reads grammar .spaced text (some rest)) :
    ∃ form ∈ ruleForms depth called, form.Reads grammar .spaced text (some rest) := by
  induction depth generalizing called rest with
  | zero => exact ⟨_, List.mem_singleton_self _, reads⟩
  | succ depth ih =>
      rw [ruleForms]
      split
      · next spaced =>
          have body := reads_rule_iff.mp reads
          rw [spaced] at body
          exact exists_form_known ih body
      · exact ⟨_, List.mem_singleton_self _, reads⟩

theorem forms_refused_known {known : Rule → List (Peg Rule)}
    (rules : ∀ {called}, (rule called).Reads grammar .spaced text none →
      ∀ form ∈ known called, form.Reads grammar .spaced text none)
    {expression : Peg Rule} (refused : expression.Reads grammar .spaced text none) :
    ∀ form ∈ forms known expression, form.Reads grammar .spaced text none := by
  induction expression with
  | choice first second one other =>
      intro form member
      rcases reads_choice_none_iff.mp refused with ⟨firstRefused, secondRefused⟩
      rcases List.mem_append.mp member with member | member
      · exact one firstRefused form member
      · exact other secondRefused form member
  | rule called => exact rules refused
  | _ =>
      intro form member
      rw [List.mem_singleton.mp member]
      exact refused

/-- A rule fails only if all its alternatives fail. -/
theorem forms_refused {depth : Nat} {called : Rule}
    (refused : (rule called).Reads grammar .spaced text none) :
    ∀ form ∈ ruleForms depth called, form.Reads grammar .spaced text none := by
  induction depth generalizing called with
  | zero =>
      intro form member
      rw [List.mem_singleton.mp member]
      exact refused
  | succ depth ih =>
      rw [ruleForms]
      split
      · next spaced =>
          have body := reads_rule_iff.mp refused
          rw [spaced] at body
          exact forms_refused_known ih body
      · intro form member
        rw [List.mem_singleton.mp member]
        exact refused

/-- Every rest that a rule leaves is left by one of its alternatives; if all of them leave the same, so does the rule. -/
theorem reads_of_form {depth : Nat} {called : Rule} (progress : (rule called).progresses mayBeEmpty)
    (agree : ∀ form ∈ ruleForms depth called, ∀ other, form.Reads grammar .spaced text (some other) →
      other = rest)
    {form : Peg Rule} (member : form ∈ ruleForms depth called)
    (reads : form.Reads grammar .spaced text (some rest)) :
    (rule called).Reads grammar .spaced text (some rest) := by
  rcases orderly.exists_reads .spaced (rule called) progress text with ⟨_ | other, answered⟩
  · have refused := forms_refused answered form member
    cases refused.unique reads
  · rcases exists_form answered with ⟨chosen, listed, chosenReads⟩
    rw [agree chosen listed other chosenReads] at answered
    exact answered

end Forms

/-! ## Parts -/

/-- The parts of a sequence. -/
def parts : Peg Rule → List (Peg Rule)
  | .seq first second => parts first ++ parts second
  | expression => [expression]

/-- The sequence of some parts. -/
def row : List (Peg Rule) → Peg Rule
  | [] => .empty
  | [expression] => expression
  | expression :: expressions => .seq expression (row expressions)

section Parts

variable {spacing : Spacing} {text : List Char} {answer : Option (List Char)}

theorem row_cons {first : Peg Rule} {others : List (Peg Rule)} (some : others ≠ []) :
    row (first :: others) = .seq first (row others) := by
  cases others with
  | nil => exact absurd rfl some
  | cons second others => rfl

/-- Expressions that read every text alike. -/
def Alike (spacing : Spacing) (first second : Peg Rule) : Prop :=
  ∀ text answer, first.Reads grammar spacing text answer ↔ second.Reads grammar spacing text answer

theorem alike_seq {first first' second second' : Peg Rule} (one : Alike spacing first first')
    (other : Alike spacing second second') :
    Alike spacing (.seq first second) (.seq first' second') := by
  intro text answer
  cases answer with
  | none =>
      change (first ++ second).Reads grammar spacing text none ↔
        (first' ++ second').Reads grammar spacing text none
      simp only [reads_seq_none_iff, one _ _, other _ _]
  | some rest =>
      change (first ++ second).Reads grammar spacing text (some rest) ↔
        (first' ++ second').Reads grammar spacing text (some rest)
      simp only [reads_seq_iff, one _ _, other _ _]

theorem alike_row_append {firsts seconds : List (Peg Rule)} (some : firsts ≠ []) (some' : seconds ≠ []) :
    Alike spacing (row (firsts ++ seconds)) (.seq (row firsts) (row seconds)) := by
  induction firsts with
  | nil => exact absurd rfl some
  | cons first firsts ih =>
      cases firsts with
      | nil =>
          intro text answer
          rw [List.singleton_append, row_cons some']
          rfl
      | cons second firsts =>
          intro text answer
          have more := ih (List.cons_ne_nil _ _)
          rw [List.cons_append, row_cons (by simp), row_cons (List.cons_ne_nil _ _)]
          have first_alike : Alike spacing first first := fun _ _ => Iff.rfl
          exact (alike_seq first_alike more text answer).trans reads_assoc_iff.symm

theorem parts_ne_nil (expression : Peg Rule) : parts expression ≠ [] := by
  induction expression with
  | seq first second one _ => simp [parts, one]
  | _ => simp [parts]

/-- A sequence reads what its parts read in a row. -/
theorem alike_parts (expression : Peg Rule) : Alike spacing (row (parts expression)) expression := by
  induction expression with
  | seq first second one other =>
      intro text answer
      have split : Alike spacing _ _ := alike_row_append (parts_ne_nil first) (parts_ne_nil second)
      exact (split text answer).trans (alike_seq one other text answer)
  | _ => exact fun _ _ => Iff.rfl

end Parts

/-! ## Openings -/

/-- How a form begins: maybe with a description, or with the word `extend`, and then a keyword. -/
structure Opening where
  extends? : Bool
  described : Bool
  keyword : String
  deriving DecidableEq

namespace Opening

/-- What stands before the keyword. -/
def before (opening : Opening) : Peg Rule :=
  if opening.extends? then .rule .extend else if opening.described then description else .empty

/-- The opening that some parts begin with. -/
def ofParts? : List (Peg Rule) → Option Opening
  | .maybe (.rule .string) :: .word keyword :: _ => some ⟨false, true, keyword⟩
  | .rule .extend :: .word keyword :: _ => some ⟨true, false, keyword⟩
  | .word keyword :: _ => some ⟨false, false, keyword⟩
  | _ => none

/-- A text that has the opening at its beginning. -/
def Heads (opening : Opening) (text : List Char) : Prop :=
  ∃ middle, opening.before.Reads grammar .spaced text (some middle) ∧
    opening.keyword.toList <+: grammar.gap .spaced middle

/-- Openings with different keys exclude each other. -/
def key (opening : Opening) : Bool × String := (opening.extends?, opening.keyword)

end Opening

/-- The keywords of type-system definitions. -/
def typeSystemKeywords : List String :=
  ["schema", "scalar", "type", "interface", "union", "enum", "input", "directive"]

section Openings

variable {text rest : List Char} {opening other : Opening}

theorem prefix_of_reads_row {spacing : Spacing} {keyword : String} {others : List (Peg Rule)}
    (reads : (row (.word keyword :: others)).Reads grammar spacing text (some rest)) :
    keyword.toList <+: text := by
  cases others with
  | nil =>
      rw [reads_word_iff.mp reads]
      exact List.prefix_append _ _
  | cons second others =>
      rcases reads_seq_iff.mp reads with ⟨middle, word, _⟩
      rw [reads_word_iff.mp word]
      exact List.prefix_append _ _

/-- The keyword of a form stands after its description, or after the word `extend`. -/
theorem heads_of_reads {listed : List (Peg Rule)} (found : Opening.ofParts? listed = some opening)
    (solid : grammar.afterBlanks text = text)
    (reads : (row listed).Reads grammar .spaced text (some rest)) : opening.Heads text := by
  unfold Opening.ofParts? at found
  split at found
  · cases found
    rcases reads_seq_iff.mp reads with ⟨middle, before, after⟩
    exact ⟨middle, before, prefix_of_reads_row after⟩
  · cases found
    rcases reads_seq_iff.mp reads with ⟨middle, before, after⟩
    exact ⟨middle, before, prefix_of_reads_row after⟩
  · cases found
    refine ⟨text, .empty, ?_⟩
    rw [gap_of_solid solid]
    exact prefix_of_reads_row reads
  · cases found

/-- Before a keyword that no `extend` precedes stands a description, or nothing. -/
theorem string_of_reads_before {middle : List Char} (defines : opening.extends? = false)
    (reads : opening.before.Reads grammar .spaced text (some middle)) :
    middle = text ∨ (rule .string).Reads grammar .spaced text (some middle) := by
  simp only [Opening.before, defines, Bool.false_eq_true, if_false] at reads
  split at reads
  · rcases reads_maybe_iff.mp reads with string | ⟨_, same⟩
    · exact Or.inr string
    · exact Or.inl same
  · have same := reads_empty_iff.mp reads
    exact Or.inl (Option.some.inj same)

theorem extend_of_reads_before {middle : List Char} (extending : opening.extends?)
    (reads : opening.before.Reads grammar .spaced text (some middle)) :
    "extend".toList <+: text ∧ (rule .extend).Reads grammar .spaced text (some middle) := by
  simp only [Opening.before, extending, if_true] at reads
  refine ⟨?_, reads⟩
  rw [reads_word_iff.mp (reads_rule_iff.mp reads)]
  exact List.prefix_append _ _

theorem keyword_unique {one two : String} (member : one ∈ "extend" :: typeSystemKeywords)
    (member' : two ∈ "extend" :: typeSystemKeywords) (begins : one.toList <+: text)
    (begins' : two.toList <+: text) : one = two := by
  have apart : ∀ one ∈ "extend" :: typeSystemKeywords, ∀ two ∈ "extend" :: typeSystemKeywords,
      one.toList <+: two.toList → one = two := by decide
  rcases List.prefix_or_prefix_of_prefix begins begins' with shorter | shorter
  · exact apart one member two member' shorter
  · exact (apart two member' one member shorter).symm

theorem not_string_of_keyword {word : String} (member : word ∈ "extend" :: typeSystemKeywords)
    (begins : word.toList <+: text) : ¬(rule .string).Reads grammar .spaced text (some rest) := by
  have unquoted : ∀ word ∈ "extend" :: typeSystemKeywords,
      word.toList ≠ [] ∧ word.toList.head? ≠ some '"' := by decide
  intro reads
  rcases string_head reads with ⟨content, rfl⟩
  rcases unquoted word member with ⟨some, other⟩
  cases same : word.toList with
  | nil => exact some same
  | cons first more =>
      rw [same] at begins other
      exact other (congrArg Option.some (List.cons_prefix_cons.mp begins).1)

theorem not_defines_of_extends (solid : grammar.afterBlanks text = text)
    (known : other.keyword ∈ typeSystemKeywords) (extending : opening.extends?)
    (defines : other.extends? = false) (heads : opening.Heads text) (heads' : other.Heads text) :
    False := by
  have unextended : ∀ keyword ∈ typeSystemKeywords, keyword ≠ "extend" := by decide
  rcases heads with ⟨middle, reads, _⟩
  rcases heads' with ⟨middle', reads', begins⟩
  have extended := (extend_of_reads_before extending reads).1
  rcases string_of_reads_before defines reads' with rfl | string
  · rw [gap_of_solid solid] at begins
    apply unextended _ known
    exact keyword_unique (List.mem_cons_of_mem _ known) List.mem_cons_self begins extended
  · exact not_string_of_keyword List.mem_cons_self extended string

/-- A text has one keyword at most, with or without the word `extend` before it. -/
theorem key_eq_of_heads (solid : grammar.afterBlanks text = text)
    (known : opening.keyword ∈ typeSystemKeywords) (known' : other.keyword ∈ typeSystemKeywords)
    (heads : opening.Heads text) (heads' : other.Heads text) : opening.key = other.key := by
  unfold Opening.key
  cases extends_eq : opening.extends? with
  | true =>
      cases extends_eq' : other.extends? with
      | true =>
          rcases heads with ⟨middle, reads, begins⟩
          rcases heads' with ⟨middle', reads', begins'⟩
          have extension := (extend_of_reads_before extends_eq reads).2
          have extension' := (extend_of_reads_before extends_eq' reads').2
          cases extension.unique extension'
          rw [keyword_unique (List.mem_cons_of_mem _ known) (List.mem_cons_of_mem _ known') begins begins']
      | false => exact (not_defines_of_extends solid known' extends_eq extends_eq' heads heads').elim
  | false =>
      cases extends_eq' : other.extends? with
      | true => exact (not_defines_of_extends solid known extends_eq' extends_eq heads' heads).elim
      | false =>
          rcases heads with ⟨middle, reads, begins⟩
          rcases heads' with ⟨middle', reads', begins'⟩
          have same : middle = middle' := by
            rcases string_of_reads_before extends_eq reads with rfl | string
            · rcases string_of_reads_before extends_eq' reads' with rfl | string'
              · rfl
              · rw [gap_of_solid solid] at begins
                exact (not_string_of_keyword (List.mem_cons_of_mem _ known) begins string').elim
            · rcases string_of_reads_before extends_eq' reads' with rfl | string'
              · rw [gap_of_solid solid] at begins'
                exact (not_string_of_keyword (List.mem_cons_of_mem _ known') begins' string).elim
              · exact Option.some.inj (string.unique string')
          subst same
          rw [keyword_unique (List.mem_cons_of_mem _ known) (List.mem_cons_of_mem _ known') begins begins']

end Openings

/-! ## Type-system definitions -/

/-- The forms of type-system definitions, each as the list of its parts. -/
def typeSystemForms : List (List (Peg Rule)) := (ruleForms 3 .typeSystemDefinition).map parts

theorem nodup_keys_typeSystemForms :
    (typeSystemForms.map fun form => (Opening.ofParts? form).map Opening.key).Nodup := by
  decide +kernel

theorem exists_opening {form : List (Peg Rule)} (member : form ∈ typeSystemForms) :
    ∃ opening, Opening.ofParts? form = some opening ∧ opening.keyword ∈ typeSystemKeywords := by
  have all : ∀ found ∈ typeSystemForms.map Opening.ofParts?,
      found.any fun opening => typeSystemKeywords.contains opening.keyword := by
    decide +kernel
  have known := all _ (List.mem_map_of_mem member)
  cases found : Opening.ofParts? form with
  | none => simp [found] at known
  | some opening =>
      rw [found, Option.any_some, List.contains_iff_mem] at known
      exact ⟨opening, rfl, known⟩

section TypeSystem

variable {text rest rest' : List Char} (solid : grammar.afterBlanks text = text)
include solid

/-- A text has one form at most. -/
theorem form_eq_of_reads {form other : List (Peg Rule)} (member : form ∈ typeSystemForms)
    (member' : other ∈ typeSystemForms) (reads : (row form).Reads grammar .spaced text (some rest))
    (reads' : (row other).Reads grammar .spaced text (some rest')) : form = other := by
  rcases exists_opening member with ⟨opening, found, known⟩
  rcases exists_opening member' with ⟨opening', found', known'⟩
  have same := key_eq_of_heads solid known known' (heads_of_reads found solid reads)
    (heads_of_reads found' solid reads')
  apply List.inj_on_of_nodup_map nodup_keys_typeSystemForms member member'
  rw [found, found', Option.map_some, Option.map_some, same]

/-- A type-system definition is read in one of its forms. -/
theorem reads_typeSystemDefinition_iff :
    (rule .typeSystemDefinition).Reads grammar .spaced text (some rest) ↔
      ∃ form ∈ typeSystemForms, (row form).Reads grammar .spaced text (some rest) := by
  constructor
  · intro reads
    rcases exists_form reads with ⟨form, member, reads⟩
    exact ⟨parts form, List.mem_map_of_mem member, (alike_parts form _ _).mpr reads⟩
  · rintro ⟨form, member, reads⟩
    rcases List.mem_map.mp member with ⟨expression, listed, rfl⟩
    apply reads_of_form rfl ?_ listed ((alike_parts expression _ _).mp reads)
    intro other listed' rest' reads'
    have reads' := (alike_parts other _ _).mpr reads'
    have same := form_eq_of_reads solid member (List.mem_map_of_mem listed') reads reads'
    rw [← same] at reads'
    exact Option.some.inj (reads'.unique reads)

end TypeSystem

end PreviewLint.GraphQL
