import PreviewLint.Proofs.GraphQL.Boundaries
import PreviewLint.Proofs.Source.Halves

/-!
# Lexemes and units

The lexemes of a text and the units of its grammar are cut by different rules: a comment ends
for the former with a line feed and for the latter with a carriage return as well, and three
quotes begin a block string for the former in any case. As long as no carriage return stands
inside of a comment, a lexeme of a text that can be walked through is a row of whole units, also
in a half of the text. So the sections of an outline begin at boundaries of units.
-/

namespace PreviewLint.Outline

open GraphQL Peg

/-! ## Strings -/

theorem quotedLength_cons {character : Char} {text : List Char}
    (escape : character = '\\' → text = []) (quote : character ≠ '"') (feed : character ≠ '\n') :
    quotedLength (character :: text) = quotedLength text + 1 := by
  rw [quotedLength]
  · rintro second rest rfl rfl
    cases escape rfl
  · exact fun same => quote same
  · exact fun same => feed same

theorem quotedLength_hexDigit {digit : Char} {text : List Char} (hex : Escape.isHexDigit digit) :
    quotedLength (digit :: text) = quotedLength text + 1 := by
  have others : digit ≠ '\\' ∧ digit ≠ '"' ∧ digit ≠ '\n' := by
    refine ⟨?_, ?_, ?_⟩ <;>
      · rintro rfl
        cases hex
  exact quotedLength_cons (fun same => absurd same others.1) others.2.1 others.2.2

/-- A quoted string of the grammar ends where the lexeme ends. -/
theorem drop_quotedLength {text rest : List Char} (quoted : Quoted text rest) :
    text.drop (quotedLength text) = rest := by
  induction quoted with
  | close => rfl
  | @unit unit text rest one more ih =>
      cases one with
      | @plain character allowed =>
          simp only [isLineEnd, Bool.and_eq_true, bne_iff_ne, Bool.not_eq_true', Bool.or_eq_false_iff,
            beq_eq_false_iff_ne] at allowed
          have next : quotedLength (character :: text) = quotedLength text + 1 :=
            quotedLength_cons (fun same => absurd same allowed.1.2) allowed.1.1 allowed.2.1
          rw [List.singleton_append, next, List.drop_succ_cons, ih]
      | escape => simp only [List.cons_append, List.nil_append, quotedLength, List.drop_succ_cons, ih]
      | code _ digits =>
          simp only [List.forall_mem_cons] at digits
          simp only [List.cons_append, List.nil_append, quotedLength, List.drop_succ_cons, ih,
            quotedLength_hexDigit digits.1, quotedLength_hexDigit digits.2.1,
            quotedLength_hexDigit digits.2.2.1, quotedLength_hexDigit digits.2.2.2.1]

theorem length_quoted_le (text : List Char) : quotedLength text ≤ text.length := by
  fun_induction quotedLength text <;> simp_all

theorem forall₂_kept_feed {kept text : List Char} (same : List.Forall₂ Kept kept ('\n' :: text)) :
    ∃ more, kept = '\n' :: more := by
  cases same with
  | cons here more =>
      rcases here with rfl | ⟨inside, _⟩
      · exact ⟨_, rfl⟩
      · cases inside

/-- Where a quoted lexeme ends does not depend on what is blanked behind it. -/
theorem quotedLength_kept {text kept : List Char}
    (same : List.Forall₂ Kept kept (text.drop (quotedLength text))) :
    quotedLength (text.take (quotedLength text) ++ kept) = quotedLength text := by
  fun_induction quotedLength text with
  | case1 second rest ih =>
      have shorter := ih same
      simp only [List.take_succ_cons, List.cons_append, quotedLength, shorter]
  | case2 rest => rfl
  | case3 rest =>
      rcases forall₂_kept_feed same with ⟨more, rfl⟩
      rfl
  | case4 character rest escape quote feed ih =>
      have shorter := ih same
      rw [List.take_succ_cons, List.cons_append, quotedLength_cons ?_ quote feed, shorter]
      rintro rfl
      cases rest with
      | nil =>
          cases same
          rfl
      | cons second rest => exact absurd rfl (escape second rest rfl)
  | case5 =>
      cases same
      rfl

/-- A block string of the grammar ends where the lexeme ends. -/
theorem drop_blockLength {text rest : List Char} (closing : blockRest text = some rest) :
    text.drop (blockLength text) = rest := by
  fun_induction blockRest text with
  | case1 text ih =>
      have shorter := ih closing
      simp only [blockLength, List.drop_succ_cons, shorter]
  | case2 text =>
      cases closing
      rfl
  | case3 character text escape quotes ih =>
      have shorter := ih closing
      rw [blockLength, List.drop_succ_cons, shorter]
      · exact escape
      · exact quotes
  | case4 => cases closing

theorem blockLength_of_unclosed {text : List Char} (unclosed : blockRest text = none) :
    blockLength text = text.length := by
  fun_induction blockRest text with
  | case1 text ih =>
      have shorter := ih unclosed
      simp only [blockLength, List.length_cons]
      omega
  | case2 text => cases unclosed
  | case3 character text escape quotes ih =>
      have shorter := ih unclosed
      rw [blockLength, List.length_cons, shorter]
      · exact escape
      · exact quotes
  | case4 => rfl

section Strings

variable {text kept : List Char} {depth : Nat}

/-- What follows an opening quote is a block string, or begins with at most one more quote. -/
theorem stringLength_block (more : List Char) :
    stringLength ('"' :: '"' :: more) = blockLength more + 2 := rfl

theorem stringLength_quoted (single : ∀ more, text ≠ '"' :: '"' :: more) :
    stringLength text = quotedLength text := by
  rw [stringLength]
  exact fun more same => single more same

/-- A block lexeme is read by the grammar, unless nothing closes it. -/
theorem blockRest_kept (same : List.Forall₂ Kept kept (text.drop (blockLength text))) :
    kept = [] ∨ blockRest (text.take (blockLength text) ++ kept) = some kept := by
  cases closing : blockRest text with
  | none =>
      rw [blockLength_of_unclosed closing, List.drop_length] at same
      cases same
      exact Or.inl rfl
  | some rest =>
      right
      have whole : text.take (blockLength text) ++ rest = text := by
        rw [← drop_blockLength closing, List.take_append_drop]
      rw [← whole] at closing
      exact blockRest_replace closing kept

/-- A quoted lexeme does not begin a block, whatever is blanked behind it. -/
theorem not_block_kept (single : ∀ more, text ≠ '"' :: '"' :: more)
    (same : List.Forall₂ Kept kept (text.drop (quotedLength text))) (more : List Char) :
    text.take (quotedLength text) ++ kept ≠ '"' :: '"' :: more := by
  intro begins
  fun_cases quotedLength text with
  | case1 second rest => cases begins
  | case2 rest =>
      cases begins
      cases same with
      | cons here _ =>
          rcases here with rfl | ⟨_, blank⟩
          · exact single _ rfl
          · cases blank
  | case3 rest =>
      rcases forall₂_kept_feed same with ⟨rest, rfl⟩
      cases begins
  | case4 character rest escape quote feed =>
      have next : quotedLength (character :: rest) = quotedLength rest + 1 := by
        rw [quotedLength]
        · exact escape
        · exact quote
        · exact feed
      rw [next, List.take_succ_cons, List.cons_append] at begins
      injection begins with same
      exact quote same
  | case5 =>
      cases same
      cases begins

/-- A string lexeme is a unit, or the end of the text. -/
theorem walk_string (same : List.Forall₂ Kept kept (text.drop (stringLength text)))
    (walk : Walk depth ('"' :: (text.take (stringLength text) ++ kept)) 0 []) :
    ∃ deeper, Walk depth ('"' :: (text.take (stringLength text) ++ kept)) deeper kept := by
  rcases walk.exists_string (Nat.zero_le _) with ⟨middle, reads, _⟩
  suffices ends : kept = [] ∨ middle = kept by
    rcases ends with rfl | rfl
    · exact ⟨0, walk⟩
    · exact ⟨depth, .string reads .refl⟩
  by_cases block : ∃ more, text = '"' :: '"' :: more
  · rcases block with ⟨more, rfl⟩
    rw [stringLength_block] at same reads
    refine (blockRest_kept same).imp_right fun closing => ?_
    have unit : (rule .string).Reads grammar .joined
        ('"' :: (List.take (blockLength more + 2) ('"' :: '"' :: more) ++ kept)) (some kept) :=
      reads_string_iff.mpr (Or.inl ⟨_, rfl, closing⟩)
    exact Option.some.inj (reads.unique unit)
  · have single : ∀ more, text ≠ '"' :: '"' :: more := fun more same => block ⟨more, same⟩
    rw [stringLength_quoted single] at same reads
    right
    rcases reads_string_iff.mp reads with ⟨content, split, _⟩ | ⟨_, content, split, quoted⟩
    · injection split with _ split
      exact absurd split (not_block_kept single same content)
    · injection split with _ split
      subst split
      have dropped := drop_quotedLength quoted
      rw [quotedLength_kept same] at dropped
      rw [← dropped, List.drop_left' (by simp [length_quoted_le])]

end Strings

/-! ## Lexemes -/

/-- A lexeme of a text in which no comment holds a carriage return, but for its last character. -/
def EndsComment (lexeme : List Char) : Prop := lexeme.head? = some '#' → '\r' ∉ lexeme.dropLast

instance (lexeme : List Char) : Decidable (EndsComment lexeme) := inferInstanceAs (Decidable (_ → _))

section Lexeme

variable {first : Char} {text kept : List Char} {depth : Nat}

theorem take_takeWhile (accepts : Char → Bool) (text : List Char) :
    text.take (text.takeWhile accepts).length = text.takeWhile accepts :=
  (List.prefix_iff_eq_take.mp (List.takeWhile_prefix accepts)).symm

theorem drop_takeWhile (accepts : Char → Bool) (text : List Char) :
    text.drop (text.takeWhile accepts).length = text.dropWhile accepts := by
  have whole : text.takeWhile accepts ++ text.dropWhile accepts = text :=
    List.takeWhile_append_dropWhile
  have dropped : (text.takeWhile accepts ++ text.dropWhile accepts).drop
      (text.takeWhile accepts).length = text.dropWhile accepts := List.drop_left
  rw [whole] at dropped
  exact dropped

/-- A comment lexeme ends before a line feed, or with the text. -/
theorem ends_comment (same : List.Forall₂ Kept kept (text.dropWhile (· != '\n'))) :
    ∀ character ∈ kept.head?, isLineEnd character := by
  cases rest : text.dropWhile (· != '\n') with
  | nil =>
      rw [rest] at same
      cases same
      simp
  | cons feed others =>
      have stops := List.head?_dropWhile_not (· != '\n') text
      rw [rest] at stops same
      have is_feed : feed = '\n' := by simpa using stops
      subst is_feed
      rcases forall₂_kept_feed same with ⟨more, rfl⟩
      rintro character ⟨⟩
      rfl

/-- A comment lexeme is a comment, maybe with a carriage return after it. -/
theorem comment_units (ends : EndsComment ('#' :: text.takeWhile (· != '\n'))) :
    ∃ body tail, text.takeWhile (· != '\n') = body ++ tail ∧
      (∀ character ∈ body, isLineEnd character = false) ∧ (tail = [] ∨ tail = ['\r']) := by
  have unfed : '\n' ∉ text.takeWhile (· != '\n') := by
    intro member
    simpa using List.all_eq_true.mp List.all_takeWhile _ member
  generalize text.takeWhile (· != '\n') = lexeme at ends unfed
  have returns := ends rfl
  have inner : ∀ body : List Char, '\n' ∉ body → '\r' ∉ body →
      ∀ character ∈ body, isLineEnd character = false := by
    intro body unfed unreturned character member
    simp only [isLineEnd, Bool.or_eq_false_iff, beq_eq_false_iff_ne]
    exact ⟨fun same => unfed (same ▸ member), fun same => unreturned (same ▸ member)⟩
  rcases List.eq_nil_or_concat lexeme with rfl | ⟨front, last, rfl⟩
  · exact ⟨[], [], rfl, by simp, Or.inl rfl⟩
  · rw [List.concat_eq_append] at unfed returns ⊢
    rw [← List.cons_append, List.dropLast_concat] at returns
    simp only [List.mem_append, List.mem_cons, not_or] at unfed returns
    by_cases returned : last = '\r'
    · exact ⟨front, ['\r'], by rw [returned], inner front unfed.1 returns.2, Or.inr rfl⟩
    · refine ⟨front ++ [last], [], by simp, inner _ ?_ ?_, Or.inl rfl⟩
      · simp [unfed]
      · simp [returns.2, Ne.symm returned]

theorem walk_comment (same : List.Forall₂ Kept kept (text.dropWhile (· != '\n')))
    (ends : EndsComment ('#' :: text.takeWhile (· != '\n'))) :
    Walk depth ('#' :: (text.takeWhile (· != '\n') ++ kept)) depth kept := by
  have ended := ends_comment same
  rcases comment_units ends with ⟨body, tail, lexeme, inside, rfl | rfl⟩
  · rw [lexeme, List.append_nil]
    exact .comment inside ended .refl
  · rw [lexeme, List.append_assoc]
    refine .comment inside ?_ (.plain (by decide) .refl)
    rintro character ⟨⟩
    rfl

/-- A lexeme is a row of units, unless it is the end of the text. -/
theorem walk_lexeme (same : List.Forall₂ Kept kept (text.drop (tailLength first text)))
    (ends : EndsComment (first :: text.take (tailLength first text)))
    (walk : Walk depth (first :: (text.take (tailLength first text) ++ kept)) 0 []) :
    ∃ deeper, Walk depth (first :: (text.take (tailLength first text) ++ kept)) deeper kept := by
  unfold tailLength at same ends walk ⊢
  split at same
  · next marks =>
      simp only [marks, if_true] at ends walk ⊢
      have mark := beq_iff_eq.mp marks
      subst mark
      rw [take_takeWhile] at ends ⊢
      rw [drop_takeWhile] at same
      exact ⟨depth, walk_comment same ends⟩
  · next unmarked =>
      rw [if_neg unmarked] at walk ⊢
      split at same
      · next quotes =>
          simp only [quotes, if_true] at walk ⊢
          have quote := beq_iff_eq.mp quotes
          subst quote
          exact walk_string same walk
      · next unquoted =>
          rw [if_neg unquoted] at walk ⊢
          split at same
          · next starts =>
              simp only [starts, if_true] at walk ⊢
              rw [take_takeWhile]
              refine ⟨depth, .plain (isPlain_of_isNamePart (isNamePart_of_isNameStart starts)) ?_⟩
              refine walk_plain fun character member => isPlain_of_isNamePart ?_
              exact List.all_eq_true.mp List.all_takeWhile character member
          · next other =>
              rw [if_neg other] at walk ⊢
              rw [List.take_zero, List.nil_append] at walk ⊢
              cases opens : isOpening first with
              | true => exact ⟨_, .opening opens .refl⟩
              | false =>
                  cases closes : isClosing first with
                  | true =>
                      rcases walk.of_closing closes (Nat.zero_le _) with ⟨outer, rfl, _⟩
                      exact ⟨outer, .closing closes .refl⟩
                  | false =>
                      refine ⟨depth, .plain ?_ .refl⟩
                      rw [isPlain_iff]
                      exact ⟨opens, closes, fun same => unquoted (beq_iff_eq.mpr same),
                        fun same => unmarked (beq_iff_eq.mpr same)⟩

end Lexeme

/-! ## Sections -/

/-- What a half keeps of a section. -/
def Section.kept (kind : Kind) (part : Section) : List Char :=
  if part.kind = kind then part.text else blanked part.text

theorem Section.kept_own {kind : Kind} {part : Section} (own : part.kind = kind) :
    part.kept kind = part.text := if_pos own

theorem Section.kept_foreign {kind : Kind} {part : Section} (foreign : part.kind ≠ kind) :
    part.kept kind = blanked part.text := if_neg foreign

/-- What a half keeps of a text in a section of some kind, or before the first section. -/
def keptIn (kind : Kind) : Option Kind → List Char → List Char
  | none, text => text
  | some other, text => Section.kept kind ⟨other, text⟩

/-- What a half keeps of some lexemes. -/
def keptFrom (kind : Kind) (scan : Scan) (pieces : List (List Char)) : List Char :=
  keptIn kind (scan.heading.map Heading.kind) (sectionsFrom scan pieces).1 ++
    (sectionsFrom scan pieces).2.flatMap (Section.kept kind)

theorem half_ofText (kind : Kind) (text : List Char) :
    (ofText text).half kind = keptFrom kind {} (lexemes text) := rfl

theorem keptIn_append (kind : Kind) (other : Option Kind) (first second : List Char) :
    keptIn kind other (first ++ second) = keptIn kind other first ++ keptIn kind other second := by
  cases other with
  | none => rfl
  | some other =>
      simp only [keptIn, Section.kept]
      split
      · rfl
      · exact List.map_append

theorem keptIn_nil (kind : Kind) (other : Option Kind) : keptIn kind other [] = [] := by
  cases other with
  | none => rfl
  | some other =>
      simp only [keptIn, Section.kept]
      split <;> rfl

/-- A step that stays in the section that is being read. -/
def Step.Stays (scan : Scan) (step : Step) : Prop :=
  step.begins = false ∧ step.scan.heading.map Heading.kind = scan.heading.map Heading.kind

/-- A step that begins a section. -/
def Step.Enters (step : Step) : Prop := step.begins ∧ ∃ heading, step.scan.heading = some heading

namespace Scan

variable (scan : Scan)

theorem kind_amend {change : Heading → Heading} (same : ∀ heading, (change heading).kind = heading.kind) :
    (scan.amend change).heading.map Heading.kind = scan.heading.map Heading.kind := by
  rw [amend, Option.map_map]
  congr 1
  exact funext same

theorem onString_cases : Step.Stays scan scan.onString ∨ Step.Enters scan.onString := by
  rw [onString]
  split
  · exact Or.inr ⟨rfl, _, rfl⟩
  · exact Or.inl ⟨rfl, rfl⟩

theorem onOpening_cases (brace : Bool) :
    Step.Stays scan (scan.onOpening brace) ∨ Step.Enters (scan.onOpening brace) ∧ brace := by
  rw [onOpening]
  split
  · split
    · next begins => exact Or.inr ⟨⟨rfl, _, rfl⟩, (Bool.and_eq_true_iff.mp begins).1⟩
    · exact Or.inl ⟨rfl, kind_amend _ fun _ => rfl⟩
  · exact Or.inl ⟨rfl, rfl⟩

theorem onClosing_stays (brace : Bool) : Step.Stays scan (scan.onClosing brace) := by
  rw [onClosing]
  dsimp only
  split
  · exact ⟨rfl, kind_amend _ fun _ => rfl⟩
  · exact ⟨rfl, rfl⟩

theorem onName_cases (name : String) :
    Step.Stays scan (scan.onName name) ∨ Step.Enters (scan.onName name) := by
  rw [onName]
  split
  · split
    · exact Or.inl ⟨rfl, kind_amend _ fun _ => rfl⟩
    · split
      · exact Or.inl ⟨rfl, kind_amend _ fun _ => rfl⟩
      · split
        · exact Or.inr ⟨rfl, _, rfl⟩
        · exact Or.inl ⟨rfl, rfl⟩
  · exact Or.inl ⟨rfl, rfl⟩

theorem onMark_stays (character : Char) : Step.Stays scan (scan.onMark character) := by
  rw [onMark]
  split
  · exact ⟨rfl, kind_amend _ fun _ => rfl⟩
  · exact ⟨rfl, rfl⟩

/-- A lexeme stays in its section, or begins a section with a solid character. -/
theorem step_cases (lexeme : List Char) :
    Step.Stays scan (scan.step lexeme) ∨ Step.Enters (scan.step lexeme) ∧
      ∃ first ∈ lexeme.head?, isSolid first := by
  cases lexeme with
  | nil => exact Or.inl ⟨rfl, rfl⟩
  | cons first more =>
      simp only [step]
      split
      · exact Or.inl ⟨rfl, rfl⟩
      · split
        · next quotes =>
            have quote := beq_iff_eq.mp quotes
            subst quote
            exact (onString_cases scan).imp_right fun enters => ⟨enters, _, rfl, rfl⟩
        · split
          · refine (onOpening_cases scan _).imp_right fun enters => ⟨enters.1, first, rfl, ?_⟩
            rw [beq_iff_eq.mp enters.2]
            rfl
          · split
            · exact Or.inl (onClosing_stays scan _)
            · split
              · next starts =>
                  refine (onName_cases scan _).imp_right fun enters => ⟨enters, first, rfl, ?_⟩
                  exact isSolid_of_isNamePart (isNamePart_of_isNameStart starts)
              · exact Or.inl (onMark_stays scan first)

end Scan

section Sections

variable {scan : Scan} {lexeme : List Char} {pieces : List (List Char)}

theorem sectionsFrom_of_stays (stays : Step.Stays scan (scan.step lexeme)) :
    sectionsFrom scan (lexeme :: pieces) =
      (lexeme ++ (sectionsFrom (scan.step lexeme).scan pieces).1,
        (sectionsFrom (scan.step lexeme).scan pieces).2) := by
  simp only [sectionsFrom, stays.1]

theorem sectionsFrom_of_enters {heading : Heading} (begins : (scan.step lexeme).begins)
    (found : (scan.step lexeme).scan.heading = some heading) :
    sectionsFrom scan (lexeme :: pieces) =
      ([], ⟨heading.kind, lexeme ++ (sectionsFrom (scan.step lexeme).scan pieces).1⟩ ::
        (sectionsFrom (scan.step lexeme).scan pieces).2) := by
  simp only [sectionsFrom, begins, found]

theorem keptFrom_cons (kind : Kind) :
    keptFrom kind scan (lexeme :: pieces) =
      keptIn kind ((scan.step lexeme).scan.heading.map Heading.kind) lexeme ++
        keptFrom kind (scan.step lexeme).scan pieces := by
  rw [keptFrom, keptFrom, ← List.append_assoc, ← keptIn_append]
  rcases scan.step_cases lexeme with stays | ⟨⟨begins, heading, found⟩, _⟩
  · rw [sectionsFrom_of_stays stays, stays.2]
  · rw [sectionsFrom_of_enters begins found, found, keptIn_nil]
    rfl

theorem kept_keptIn (kind : Kind) (other : Option Kind) (text : List Char) :
    List.Forall₂ Kept (keptIn kind other text) text := by
  cases other with
  | none => exact kept_refl text
  | some other =>
      simp only [keptIn, Section.kept]
      split
      · exact kept_refl text
      · exact kept_blanked text

theorem kept_keptFrom (kind : Kind) (scan : Scan) (pieces : List (List Char)) :
    List.Forall₂ Kept (keptFrom kind scan pieces) pieces.flatten := by
  induction pieces generalizing scan with
  | nil =>
      simp only [keptFrom, sectionsFrom, keptIn_nil]
      exact .nil
  | cons lexeme pieces ih =>
      rw [keptFrom_cons, List.flatten_cons]
      exact List.rel_append (kept_keptIn kind _ lexeme) (ih _)

theorem solid_of_mem_sections {part : Section} (member : part ∈ (sectionsFrom scan pieces).2) :
    ∃ first more, part.text = first :: more ∧ isSolid first := by
  induction pieces generalizing scan with
  | nil => cases member
  | cons lexeme pieces ih =>
      rcases scan.step_cases lexeme with stays | ⟨⟨begins, heading, found⟩, first, head, solid⟩
      · rw [sectionsFrom_of_stays stays] at member
        exact ih member
      · rw [sectionsFrom_of_enters begins found] at member
        rcases List.mem_cons.mp member with rfl | later
        · cases lexeme with
          | nil => cases head
          | cons other more =>
              cases head
              exact ⟨first, _, rfl, solid⟩
        · exact ih later

/-- A lexeme is a row of units in a half, whether it is kept or blanked. -/
theorem walk_keptIn {kind : Kind} {other : Option Kind} {first : Char} {text kept : List Char}
    {depth : Nat} (same : List.Forall₂ Kept kept (text.drop (tailLength first text)))
    (ends : EndsComment (first :: text.take (tailLength first text)))
    (walk : Walk depth (keptIn kind other (first :: text.take (tailLength first text)) ++ kept) 0 []) :
    ∃ deeper,
      Walk depth (keptIn kind other (first :: text.take (tailLength first text)) ++ kept) deeper kept := by
  have blanks : ∀ {lexeme : List Char}, Walk depth (blanked lexeme ++ kept) depth kept :=
    walk_plain fun _ member => isPlain_of_isBlank (isBlank_of_mem_blanked member)
  cases other with
  | none => exact walk_lexeme same ends walk
  | some other =>
      simp only [keptIn, Section.kept] at walk ⊢
      split at walk
      · next own =>
          rw [if_pos own]
          exact walk_lexeme same ends walk
      · next foreign =>
          rw [if_neg foreign]
          exact ⟨depth, blanks⟩

end Sections

/-- Every section of a text begins at the boundary of two units of a half. -/
theorem walk_sections {kind : Kind} {text : List Char} {scan : Scan} {depth : Nat}
    (ends : ∀ lexeme ∈ lexemes text, EndsComment lexeme)
    (walk : Walk depth (keptFrom kind scan (lexemes text)) 0 []) {before after : List Section}
    (split : (sectionsFrom scan (lexemes text)).2 = before ++ after) (some : after ≠ []) :
    ∃ deeper, Walk depth (keptFrom kind scan (lexemes text)) deeper
      (after.flatMap (Section.kept kind)) := by
  fun_induction lexemes text generalizing scan depth before with
  | case1 =>
      have none := (List.append_eq_nil_iff.mp split.symm).2
      exact absurd none some
  | case2 first rest ih =>
      have here := ends _ List.mem_cons_self
      have there := fun lexeme member => ends lexeme (List.mem_cons_of_mem _ member)
      generalize lexeme_eq : first :: rest.take (tailLength first rest) = lexeme at *
      have kept := kept_keptFrom kind (scan.step lexeme).scan
        (lexemes (rest.drop (tailLength first rest)))
      rw [flatten_lexemes] at kept
      have boundary : ∃ deeper, Walk depth
          (keptFrom kind scan (lexeme :: lexemes (rest.drop (tailLength first rest)))) deeper
          (keptFrom kind (scan.step lexeme).scan (lexemes (rest.drop (tailLength first rest)))) := by
        rw [keptFrom_cons] at walk ⊢
        subst lexeme_eq
        exact walk_keptIn kept here walk
      rcases boundary with ⟨deeper, boundary⟩
      have later : ∀ {before : List Section},
          (sectionsFrom (scan.step lexeme).scan (lexemes (rest.drop (tailLength first rest)))).2 =
            before ++ after →
          ∃ deeper, Walk depth
            (keptFrom kind scan (lexeme :: lexemes (rest.drop (tailLength first rest)))) deeper
            (after.flatMap (Section.kept kind)) := by
        intro before split
        rcases ih there (boundary.linear walk (Nat.zero_le _)) split with ⟨deepest, more⟩
        exact ⟨deepest, boundary.trans more⟩
      rcases scan.step_cases lexeme with stays | ⟨⟨begins, heading, found⟩, _⟩
      · rw [sectionsFrom_of_stays stays] at split
        exact later split
      · cases before with
        | cons part before =>
            rw [sectionsFrom_of_enters begins found] at split
            exact later (List.cons.inj split).2
        | nil =>
            -- The lexeme begins the first section, and the text up to it is empty.
            rw [List.nil_append] at split
            rw [← split, keptFrom, sectionsFrom_of_enters begins found, keptIn_nil]
            exact ⟨depth, .refl⟩

end PreviewLint.Outline
