import PreviewLint.Document.Outline
import PreviewLint.Proofs.GraphQL.Lexis

/-!
# Strings in their contexts

A string is read in the same way whatever follows it, with one exception: two quotes before a
third one are an empty string only if the three quotes do not begin a block, and whether they
do depends on all of the text that follows. The lexemes of an outline take three quotes for
the beginning of a block in any case, and agree with the grammar on all other strings.
-/

namespace PreviewLint.GraphQL

open Peg

/-! ## Block strings -/

theorem blockRest_length {text rest : List Char} (closing : blockRest text = some rest) :
    rest.length + 3 ≤ text.length := by
  fun_induction blockRest text with
  | case1 text ih =>
      have shorter := ih closing
      simp only [List.length_cons]
      omega
  | case2 text =>
      cases closing
      simp only [List.length_cons]
      omega
  | case3 character text _ _ ih =>
      have shorter := ih closing
      simp only [List.length_cons]
      omega
  | case4 => cases closing

theorem blockRest_other {character : Char} {text : List Char}
    (escape : ∀ more, character :: text ≠ '\\' :: '"' :: '"' :: '"' :: more)
    (quotes : ∀ more, character :: text ≠ '"' :: '"' :: '"' :: more) :
    blockRest (character :: text) = blockRest text := by
  rw [blockRest]
  · rintro more rfl rfl
    exact escape more rfl
  · rintro more rfl rfl
    exact quotes more rfl

/-- More text after a block string does not change where it ends. -/
theorem blockRest_append {text rest : List Char} (closing : blockRest text = some rest)
    (more : List Char) : blockRest (text ++ more) = some (rest ++ more) := by
  fun_induction blockRest text with
  | case1 text ih => exact ih closing
  | case2 text =>
      cases closing
      rfl
  | case3 character text escape quotes ih =>
      rw [← ih closing]
      -- The first characters of the text are those of a closed block, so it has three at least.
      have long := blockRest_length closing
      obtain ⟨second, third, fourth, others, rfl⟩ :
          ∃ second third fourth others, text = second :: third :: fourth :: others := by
        rcases text with _ | ⟨second, _ | ⟨third, _ | ⟨fourth, others⟩⟩⟩
        · cases long
        · simp at long
        · simp at long
        · exact ⟨second, third, fourth, others, rfl⟩
      rw [List.cons_append]
      apply blockRest_other
      · intro tail same
        injection same with first same
        simp only [List.cons_append, List.cons.injEq] at same
        rcases same with ⟨rfl, rfl, rfl, _⟩
        exact escape others first rfl
      · intro tail same
        injection same with first same
        simp only [List.cons_append, List.cons.injEq] at same
        rcases same with ⟨rfl, rfl, _⟩
        exact quotes _ first rfl
  | case4 => cases closing

/-- A block string is closed by its own characters. -/
theorem blockRest_truncate {inside after : List Char}
    (closing : blockRest (inside ++ after) = some after) : blockRest inside = some [] := by
  generalize whole : inside ++ after = text at closing
  fun_induction blockRest text generalizing inside with
  | case1 text ih =>
      have long := blockRest_length closing
      have cut : ['\\', '"', '"', '"'] ++ text = inside ++ after := whole.symm
      rcases exists_middle cut (by omega) with ⟨others, rfl, rest⟩
      have shorter := ih rest.symm closing
      exact shorter
  | case2 text =>
      cases closing
      have same : inside = ['"', '"', '"'] := List.append_cancel_right whole
      rw [same]
      rfl
  | case3 character text escape quotes ih =>
      have long := blockRest_length closing
      have cut : [character] ++ text = inside ++ after := whole.symm
      rcases exists_middle cut (by omega) with ⟨others, rfl, rfl⟩
      rw [← ih rfl closing]
      apply blockRest_other
      · intro more same
        injection same with same rest
        subst rest
        exact escape _ same rfl
      · intro more same
        injection same with same rest
        subst rest
        exact quotes _ same rfl
  | case4 => cases closing

theorem blockRest_replace {inside after : List Char}
    (closing : blockRest (inside ++ after) = some after) (other : List Char) :
    blockRest (inside ++ other) = some other :=
  blockRest_append (blockRest_truncate closing) other

theorem blockRest_last {text : List Char} (closing : blockRest text = some []) :
    text.getLast? = some '"' := by
  fun_induction blockRest text with
  | case1 text ih =>
      have last := ih closing
      simp [List.getLast?_cons, last]
  | case2 text =>
      cases closing
      rfl
  | case3 character text _ _ ih =>
      have last := ih closing
      simp [List.getLast?_cons, last]
  | case4 => cases closing

/-! ## Quoted strings -/

theorem Quoted.length_lt {text rest : List Char} (quoted : Quoted text rest) :
    rest.length < text.length := by
  induction quoted with
  | close => simp
  | unit one _ ih =>
      rw [List.length_append]
      omega

theorem Quoted.last {text rest : List Char} (quoted : Quoted text rest) :
    ∃ inside, text = inside ++ '"' :: rest := by
  induction quoted with
  | close => exact ⟨[], rfl⟩
  | @unit unit _ _ one more ih =>
      rcases ih with ⟨inside, rfl⟩
      exact ⟨unit ++ inside, (List.append_assoc _ _ _).symm⟩

/-- A quoted string is read in the same way whatever follows it. -/
theorem Quoted.replace {inside after : List Char} (quoted : Quoted (inside ++ after) after)
    (other : List Char) : Quoted (inside ++ other) other := by
  generalize whole : inside ++ after = text at quoted
  induction quoted generalizing inside with
  | close =>
      have same : inside = ['"'] := List.append_cancel_right whole
      rw [same]
      exact .close
  | @unit unit text rest one more ih =>
      have long := more.length_lt
      rcases exists_middle whole.symm (by omega) with ⟨others, rfl, rfl⟩
      rw [List.append_assoc]
      exact .unit one (ih rfl)

/-! ## Strings -/

/-- Two quotes that a third one follows. -/
def Doubtful (unit text : List Char) : Prop := unit = ['"', '"'] ∧ text.head? = some '"'

theorem string_head {spacing : Spacing} {text rest : List Char}
    (reads : (rule .string).Reads grammar spacing text (some rest)) :
    ∃ more, text = '"' :: more := by
  rcases reads_string_iff.mp reads with ⟨content, rfl, _⟩ | ⟨_, content, rfl, _⟩
  · exact ⟨_, rfl⟩
  · exact ⟨_, rfl⟩

/-- A string is its first quote and what follows it up to its end. -/
theorem exists_unit {spacing : Spacing} {text rest : List Char}
    (reads : (rule .string).Reads grammar spacing text (some rest)) :
    ∃ unit, text = '"' :: (unit ++ rest) := by
  rcases orderly.suffix_of_reads reads with ⟨unit, rfl⟩
  cases unit with
  | nil =>
      have empty := orderly.nullable_of_reads reads (Nat.le_refl _)
      cases empty
  | cons character unit =>
      rcases string_head reads with ⟨more, same⟩
      cases same
      exact ⟨unit, rfl⟩

section Context

variable {spacing : Spacing} {unit rest after : List Char}

/-- A string stays one when the text is cut off somewhere behind it. -/
theorem string_truncate
    (reads : (rule .string).Reads grammar spacing (unit ++ (rest ++ after)) (some (rest ++ after))) :
    (rule .string).Reads grammar spacing (unit ++ rest) (some rest) := by
  rcases reads_string_iff.mp reads with ⟨content, same, closing⟩ | ⟨unclosed, content, same, quoted⟩
  · have long := blockRest_length closing
    have cut : ['"', '"', '"'] ++ content = unit ++ (rest ++ after) := same.symm
    rcases exists_middle cut (by omega) with ⟨inside, rfl, rfl⟩
    exact reads_string_iff.mpr (Or.inl ⟨inside ++ rest, rfl, blockRest_replace closing rest⟩)
  · have long := quoted.length_lt
    have cut : ['"'] ++ content = unit ++ (rest ++ after) := same.symm
    rcases exists_middle cut (by omega) with ⟨inside, rfl, rfl⟩
    refine reads_string_iff.mpr (Or.inr ⟨?_, inside ++ rest, rfl, quoted.replace rest⟩)
    intro block begins
    cases closing : blockRest block with
    | none => rfl
    | some others =>
        have longer := blockRest_append closing after
        rw [unclosed (block ++ after) (by rw [← List.append_assoc, begins]; rfl)] at longer
        cases longer

/-- A string ends with a quote. -/
theorem string_last (reads : (rule .string).Reads grammar spacing (unit ++ rest) (some rest)) :
    unit.getLast? = some '"' := by
  have alone : (rule .string).Reads grammar spacing (unit ++ []) (some []) :=
    string_truncate reads
  rw [List.append_nil] at alone
  rcases reads_string_iff.mp alone with ⟨content, rfl, closing⟩ | ⟨_, content, rfl, quoted⟩
  · have last := blockRest_last closing
    simp [List.getLast?_cons, last]
  · rcases quoted.last with ⟨inside, rfl⟩
    simp [List.getLast?_cons]

/-- A quoted string does not begin with two more quotes, unless it is empty and a third one follows. -/
theorem Quoted.not_block {content : List Char} (quoted : Quoted content [])
    (certain : ¬Doubtful ('"' :: content) after) (block : List Char) :
    content ++ after ≠ '"' :: '"' :: block := by
  intro begins
  cases quoted with
  | close =>
      cases after with
      | nil => cases begins
      | cons character others =>
          refine absurd ⟨rfl, ?_⟩ certain
          simp only [List.cons_append, List.nil_append, List.cons.injEq] at begins
          rw [List.head?_cons, begins.2.1]
  | unit one more =>
      cases one with
      | plain allowed =>
          simp only [List.cons_append, List.nil_append, List.cons.injEq] at begins
          rw [begins.1] at allowed
          cases allowed
      | escape allowed =>
          simp only [List.cons_append, List.nil_append, List.cons.injEq] at begins
          cases begins.1
      | code =>
          simp only [List.cons_append, List.nil_append, List.cons.injEq] at begins
          cases begins.1

/-- A string is read in the same way whatever follows it, unless a third quote does. -/
theorem string_before (alone : (rule .string).Reads grammar spacing unit (some []))
    (certain : ¬Doubtful unit after) :
    (rule .string).Reads grammar spacing (unit ++ after) (some after) := by
  rcases reads_string_iff.mp alone with ⟨content, rfl, closing⟩ | ⟨_, content, rfl, quoted⟩
  · refine reads_string_iff.mpr (Or.inl ⟨content ++ after, rfl, ?_⟩)
    exact blockRest_append closing after
  · have stays : Quoted (content ++ []) [] := by
      rw [List.append_nil]
      exact quoted
    refine reads_string_iff.mpr (Or.inr ⟨?_, content ++ after, rfl, stays.replace after⟩)
    intro block begins
    exact absurd (List.cons.inj begins).2 (quoted.not_block certain block)

end Context

end PreviewLint.GraphQL
