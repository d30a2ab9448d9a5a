import PreviewLint.Document.Outline
import PreviewLint.Proofs.GraphQL.Lexis

/-!
# How definitions begin

Every match of a definition begins with one of a few fixed texts. They are read off the
grammar: `beginnings` follows an expression up to the first texts that it matches. The texts
with which the two kinds of definitions begin exclude each other, so that no text begins with
definitions of both kinds.
-/

namespace PreviewLint

namespace GraphQL

open Peg

/-- The fixed texts with which a match of either of two expressions begins. -/
def eitherBeginning : Option (List String) → Option (List String) → Option (List String)
  | some one, some other => some (one ++ other)
  | _, _ => none

/--
The fixed texts with which a match of an expression begins, unless it reads nothing; `none` if
no such texts are found. `known` gives those of the rules.
-/
def beginnings (known : Rule → Option (List String)) : Peg Rule → Option (List String)
  | .empty | .absent _ => some []
  | .char _ => none
  | .word fixed => some [fixed]
  | .rule called => known called
  | .seq first second =>
    if first.nullable mayBeEmpty then
      eitherBeginning (beginnings known first) (beginnings known second)
    else beginnings known first
  | .choice first second => eitherBeginning (beginnings known first) (beginnings known second)
  | .maybe body | .many body => beginnings known body

/-- The fixed texts with which a match of a rule begins, looked for in `depth` rules at most. -/
def ruleBeginnings : Nat → Rule → Option (List String)
  | 0, _ => none
  | depth + 1, called => beginnings (ruleBeginnings depth) (grammar.body called)

theorem eitherBeginning_eq_some {one other : Option (List String)} {words : List String}
    (known : eitherBeginning one other = some words) :
    ∃ first second, one = some first ∧ other = some second ∧ words = first ++ second := by
  cases one with
  | none => cases known
  | some first =>
      cases other with
      | none => cases known
      | some second =>
          cases known
          exact ⟨first, second, rfl, rfl, rfl⟩

theorem gap_of_solid {text : List Char} (solid : grammar.afterBlanks text = text)
    (spacing : Spacing) : grammar.gap spacing text = text := by
  rw [Grammar.gap]
  split
  · exact solid
  · rfl

/-- A match that reads something begins with one of the texts that were found. -/
theorem begins_of_reads {spacing : Spacing} {expression : Peg Rule} {text rest : List Char}
    {depth : Nat} {words : List String} (solid : grammar.afterBlanks text = text)
    (reads : expression.Reads grammar spacing text (some rest))
    (known : beginnings (ruleBeginnings depth) expression = some words) :
    rest = text ∨ ∃ word ∈ words, word.toList <+: text := by
  generalize found : some rest = answer at reads
  induction reads generalizing rest depth words with
  | empty | absent | maybe_none | many_none =>
      cases found
      exact Or.inl rfl
  | char => cases known
  | word =>
      cases known
      exact Or.inr ⟨_, List.mem_singleton_self _, List.prefix_append _ _⟩
  | rule _ ih =>
      cases depth with
      | zero => cases known
      | succ depth => exact ih solid known found
  | @seq spacing first second text middle answer before _ one other =>
      rw [beginnings] at known
      split at known
      · rcases eitherBeginning_eq_some known with ⟨ones, others, firstKnown, secondKnown, rfl⟩
        rcases one solid firstKnown rfl with same | ⟨word, member, begins⟩
        · subst same
          rw [gap_of_solid solid] at other
          rcases other solid secondKnown found with same | ⟨word, member, begins⟩
          · exact Or.inl same
          · exact Or.inr ⟨word, List.mem_append_right _ member, begins⟩
        · exact Or.inr ⟨word, List.mem_append_left _ member, begins⟩
      · next reading =>
          rcases one solid known rfl with same | begins
          · subst same
            exact absurd (orderly.nullable_of_reads before (Nat.le_refl _)) reading
          · exact Or.inr begins
  | choice_first _ ih =>
      rcases eitherBeginning_eq_some known with ⟨ones, others, firstKnown, _, rfl⟩
      rcases ih solid firstKnown found with same | ⟨word, member, begins⟩
      · exact Or.inl same
      · exact Or.inr ⟨word, List.mem_append_left _ member, begins⟩
  | choice_second _ _ _ ih =>
      rcases eitherBeginning_eq_some known with ⟨ones, others, _, secondKnown, rfl⟩
      rcases ih solid secondKnown found with same | ⟨word, member, begins⟩
      · exact Or.inl same
      · exact Or.inr ⟨word, List.mem_append_right _ member, begins⟩
  | maybe _ ih | many_last _ _ ih => exact ih solid known found
  | many_more _ _ _ one _ others =>
      rcases one solid known rfl with same | begins
      · subst same
        rw [gap_of_solid solid] at others
        exact others solid known found
      · exact Or.inr begins
  | char_refused | word_refused | seq_refused | absent_refused => cases found

/-- The texts with which executable definitions begin. -/
def executableBeginnings : List String :=
  ["query", "mutation", "subscription", "\x7b", "fragment"]

/-- The texts with which type-system definitions begin. -/
def typeSystemBeginnings : List String :=
  ["\"", "schema", "extend", "scalar", "type", "interface", "union", "enum", "input", "directive"]

end GraphQL

namespace Outline.Kind

open GraphQL

/-- The rule of a text of definitions of a kind. -/
def document : Kind → Rule
  | executable => .executableDocument
  | typeSystem => .typeSystemDocument

/-- The rule of one definition of a kind. -/
def definition : Kind → Rule
  | executable => .executableDefinition
  | typeSystem => .typeSystemDefinition

/-- The texts with which definitions of a kind begin. -/
def beginnings : Kind → List String
  | executable => executableBeginnings
  | typeSystem => typeSystemBeginnings

/-- Every definition begins with one of the texts of its kind. -/
theorem begins {kind : Kind} {spacing : Spacing} {text rest : List Char}
    (solid : grammar.afterBlanks text = text)
    (reads : (Peg.rule kind.definition).Reads grammar spacing text (some rest)) :
    ∃ word ∈ kind.beginnings, word.toList <+: text := by
  have known : ∃ words, GraphQL.beginnings (ruleBeginnings 5) (.rule kind.definition) = some words ∧
      ∀ word ∈ words, ∃ shorter ∈ kind.beginnings, shorter.toList <+: word.toList := by
    cases kind <;> exact ⟨_, rfl, by decide⟩
  rcases known with ⟨words, known, shorten⟩
  rcases begins_of_reads solid reads known with same | ⟨word, member, begins⟩
  · subst same
    have empty := orderly.nullable_of_reads reads (Nat.le_refl _)
    cases kind <;> cases empty
  · rcases shorten word member with ⟨shorter, listed, shorterBegins⟩
    exact ⟨shorter, listed, shorterBegins.trans begins⟩

end Outline.Kind

end PreviewLint
