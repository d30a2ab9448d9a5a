import Mathlib.Data.List.Forall2
import PreviewLint.Document.Outline
import PreviewLint.Proofs.GraphQL.Beginnings
import PreviewLint.Text.Position

/-!
# The halves of a text

An outline loses nothing of the text, and a half differs from the text only in that some
characters that are not line ends are blanked. Every place of a half therefore has the
position that it has in the text. The two halves never differ in two solid characters at one
place, so that no definition of one half begins where a definition of the other half begins.
-/

namespace PreviewLint

open GraphQL

namespace Outline

theorem flatten_lexemes (text : List Char) : (lexemes text).flatten = text := by
  fun_induction lexemes text with
  | case1 => rfl
  | case2 first rest ih =>
      rw [List.flatten_cons, ih, List.cons_append, List.take_append_drop]

theorem text_sectionsFrom (scan : Scan) (pieces : List (List Char)) :
    (sectionsFrom scan pieces).1 ++ (sectionsFrom scan pieces).2.flatMap Section.text =
      pieces.flatten := by
  induction pieces generalizing scan with
  | nil => rfl
  | cons lexeme rest ih =>
      have next := ih (scan.step lexeme).scan
      simp only [sectionsFrom]
      split
      · simp only [List.nil_append, List.flatMap_cons, List.append_assoc, next, List.flatten_cons]
      · simp only [List.append_assoc, next, List.flatten_cons]

/-- An outline holds the whole text. -/
theorem text_ofText (text : List Char) :
    (ofText text).leading ++ (ofText text).sections.flatMap Section.text = text :=
  (text_sectionsFrom {} (lexemes text)).trans (flatten_lexemes text)

/-- A character of a half, and the character of the text that stands at its place. -/
def Kept (kept original : Char) : Prop :=
  kept = original ∨ isLineEnd original = false ∧ kept = ' '

theorem kept_refl (text : List Char) : List.Forall₂ Kept text text :=
  List.forall₂_same.mpr fun _ _ => Or.inl rfl

theorem kept_blanked (text : List Char) : List.Forall₂ Kept (blanked text) text := by
  induction text with
  | nil => exact .nil
  | cons character rest ih =>
      refine .cons ?_ ih
      dsimp only
      split
      · exact Or.inl rfl
      · next inside => exact Or.inr ⟨Bool.eq_false_iff.mpr inside, rfl⟩

/-- A half has a blank, or the character itself, in the place of every character of the text. -/
theorem kept_half (outline : Outline) (kind : Kind) :
    List.Forall₂ Kept (outline.half kind)
      (outline.leading ++ outline.sections.flatMap Section.text) := by
  refine List.rel_append (kept_refl _) ?_
  induction outline.sections with
  | nil => exact .nil
  | cons part parts ih =>
      rw [List.flatMap_cons, List.flatMap_cons]
      refine List.rel_append ?_ ih
      split
      · exact kept_refl _
      · exact kept_blanked _

theorem kept_half_ofText (text : List Char) (kind : Kind) :
    List.Forall₂ Kept ((ofText text).half kind) text := by
  have kept := kept_half (ofText text) kind
  rw [text_ofText] at kept
  exact kept

/-- The characters at one place of two halves. -/
def Shared (first second : Char) : Prop :=
  first = second ∨ isBlank first ∨ isBlank second

theorem shared_refl (text : List Char) : List.Forall₂ Shared text text :=
  List.forall₂_same.mpr fun _ _ => Or.inl rfl

theorem isBlank_of_mem_blanked {text : List Char} {character : Char}
    (member : character ∈ blanked text) : isBlank character := by
  rcases List.mem_map.mp member with ⟨original, _, rfl⟩
  split
  · next ends => exact isBlank_of_isLineEnd ends
  · rfl

theorem length_blanked (text : List Char) : (blanked text).length = text.length :=
  List.length_map _

theorem shared_blanked (text : List Char) :
    List.Forall₂ Shared text (blanked text) ∧ List.Forall₂ Shared (blanked text) text := by
  have blank : ∀ character ∈ blanked text, isBlank character := fun _ => isBlank_of_mem_blanked
  generalize same : blanked text = other at blank
  have lengths : other.length = text.length := same ▸ length_blanked text
  clear same
  induction text generalizing other with
  | nil =>
      cases List.length_eq_zero_iff.mp lengths
      exact ⟨.nil, .nil⟩
  | cons character rest ih =>
      cases other with
      | nil => cases lengths
      | cons first others =>
          have here := blank first List.mem_cons_self
          rcases ih others (fun _ member => blank _ (List.mem_cons_of_mem _ member))
            (Nat.succ.inj lengths) with ⟨left, right⟩
          exact ⟨.cons (Or.inr (Or.inr here)) left, .cons (Or.inr (Or.inl here)) right⟩

/-- At every place the two halves have one character, or one of them has a blank. -/
theorem shared_halves (outline : Outline) :
    List.Forall₂ Shared (outline.half .executable) (outline.half .typeSystem) := by
  refine List.rel_append (shared_refl _) ?_
  induction outline.sections with
  | nil => exact .nil
  | cons part parts ih =>
      rw [List.flatMap_cons, List.flatMap_cons]
      refine List.rel_append ?_ ih
      cases part.kind with
      | executable => exact (shared_blanked part.text).1
      | typeSystem => exact (shared_blanked part.text).2

end Outline

open Outline

/-- Positions in a half are positions in the text. -/
theorem Position.following_of_kept {kept text : List Char} (same : List.Forall₂ Kept kept text) :
    following kept = following text := by
  unfold following
  generalize start = position
  induction same generalizing position with
  | nil => rfl
  | @cons first original others rest here _ ih =>
      rw [List.foldl_cons, List.foldl_cons, ih]
      rcases here with rfl | ⟨inside, rfl⟩
      · rfl
      · simp only [isLineEnd, Bool.or_eq_false_iff, beq_eq_false_iff_ne] at inside
        simp [advance, inside]

/-- Solid beginnings of two halves agree as far as both go. -/
theorem prefix_of_shared {first second one other : List Char}
    (shared : List.Forall₂ Shared first second) (begins : one <+: first) (begins' : other <+: second)
    (solid : ∀ character ∈ one, isSolid character) (solid' : ∀ character ∈ other, isSolid character) :
    one <+: other ∨ other <+: one := by
  induction shared generalizing one other with
  | nil =>
      rw [List.prefix_nil] at begins
      subst begins
      exact Or.inl List.nil_prefix
  | @cons character character' first second here _ ih =>
      cases one with
      | nil => exact Or.inl List.nil_prefix
      | cons head tail =>
          cases other with
          | nil => exact Or.inr List.nil_prefix
          | cons head' tail' =>
              obtain ⟨rfl, more⟩ := List.cons_prefix_cons.mp begins
              obtain ⟨rfl, more'⟩ := List.cons_prefix_cons.mp begins'
              have unblank := (isSolid_iff.mp (solid head List.mem_cons_self)).1
              have unblank' := (isSolid_iff.mp (solid' head' List.mem_cons_self)).1
              have same : head = head' := by
                rcases here with same | blank | blank
                · exact same
                · rw [unblank] at blank
                  cases blank
                · rw [unblank'] at blank
                  cases blank
              subst same
              rw [List.prefix_cons_inj, List.prefix_cons_inj]
              apply ih more more'
              · exact fun _ member => solid _ (List.mem_cons_of_mem _ member)
              · exact fun _ member => solid' _ (List.mem_cons_of_mem _ member)

/-- The two halves do not begin with definitions of their kinds at one place. -/
theorem not_begins_of_shared {first second : List Char} (shared : List.Forall₂ Shared first second)
    (begins : ∃ word ∈ Kind.executable.beginnings, word.toList <+: first)
    (begins' : ∃ word ∈ Kind.typeSystem.beginnings, word.toList <+: second) : False := by
  have incomparable : ∀ one ∈ executableBeginnings, ∀ other ∈ typeSystemBeginnings,
      ¬(one.toList <+: other.toList ∨ other.toList <+: one.toList) := by decide
  have solid : ∀ word ∈ executableBeginnings ++ typeSystemBeginnings,
      word.toList.all isSolid := by decide
  rcases begins with ⟨one, member, begins⟩
  rcases begins' with ⟨other, member', begins'⟩
  apply incomparable one member other member'
  apply prefix_of_shared shared begins begins'
  · exact List.all_eq_true.mp (solid one (List.mem_append_left _ member))
  · exact List.all_eq_true.mp (solid other (List.mem_append_right _ member'))

end PreviewLint
