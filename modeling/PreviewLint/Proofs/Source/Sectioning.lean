import PreviewLint.Proofs.Source.Division
import PreviewLint.Proofs.Source.Scanning

/-!
# The section of a definition

Between two definitions the scan is ready for the next one. There blanks and comments leave it as
it is, and a definition takes it through one section of its kind to a place where it is ready
again, provided that the lexemes of the definition are what the scan takes them for.
-/

namespace PreviewLint.Outline

open GraphQL Peg

/-! ## Blanks and comments -/

/-- A comment or a blank. -/
def isIdle (lexeme : List Char) : Bool := lexeme.head?.any fun first => !isSolid first

theorem idle_of_afterBlanks {text : List Char} (blank : grammar.afterBlanks text = [])
    (regular : ∀ lexeme ∈ lexemes text, Regular lexeme) : ∀ lexeme ∈ lexemes text, isIdle lexeme := by
  fun_induction lexemes text with
  | case1 => simp
  | case2 first rest ih =>
      have idle : isSolid first = false := Bool.eq_false_iff.mpr fun solid => by
        rw [afterBlanks_solid solid] at blank
        cases blank
      rw [List.forall_mem_cons] at regular ⊢
      refine ⟨by rw [isIdle, List.head?_cons, Option.any_some, idle]; rfl, ih ?_ regular.2⟩
      rw [← afterBlanks_lexeme regular.1 idle]
      exact blank

theorem afterBlanks_idle {text back : List Char} {front : List (List Char)}
    (split : lexemes text = front ++ lexemes back) (regular : ∀ lexeme ∈ front, Regular lexeme)
    (idle : ∀ lexeme ∈ front, isIdle lexeme) : grammar.afterBlanks text = grammar.afterBlanks back := by
  induction front generalizing text with
  | nil => rw [lexemes_inj split]
  | cons lexeme front ih =>
      rw [List.cons_append] at split
      rcases exists_of_lexemes_eq_cons split with ⟨first, rest, rfl, rfl, others⟩
      rw [List.forall_mem_cons] at regular idle
      have here : isSolid first = false := by
        simpa only [isIdle, List.head?_cons, Option.any_some, Bool.not_eq_true'] using idle.1
      rw [afterBlanks_lexeme regular.1 here]
      exact ih others regular.2 idle.2

theorem isBlank_getLast {gap : List Char} (ignored : Ignored gap) :
    ∀ last ∈ gap.getLast?, isBlank last := by
  have longer : ∀ {character : Char} {rest : List Char}, isBlank character →
      (∀ last ∈ rest.getLast?, isBlank last) → ∀ last ∈ (character :: rest).getLast?, isBlank last := by
    intro character rest blank ih
    cases rest with
    | nil =>
        rintro last ⟨⟩
        exact blank
    | cons next rest =>
        rw [List.getLast?_cons_cons]
        exact ih
  induction ignored with
  | nil => simp
  | blank blank _ ih => exact longer blank ih
  | comment _ ends _ ih =>
      rw [List.getLast?_append_of_ne_nil _ (List.cons_ne_nil _ _)]
      exact longer (isBlank_of_isLineEnd ends) ih

/-- Blanks and comments are lexemes of their own before a solid character. -/
theorem lexemes_gap {gap text : List Char} (ignored : Ignored gap)
    (solid : ∀ first ∈ text.head?, isSolid first)
    (regular : ∀ lexeme ∈ lexemes (gap ++ text), Regular lexeme) :
    lexemes (gap ++ text) = lexemes gap ++ lexemes text ∧ ∀ lexeme ∈ lexemes gap, isIdle lexeme := by
  have apart : gap.getLast?.any isNamePart = false := by
    have blank := isBlank_getLast ignored
    cases last_eq : gap.getLast? with
    | none => rfl
    | some last =>
        refine Bool.eq_false_iff.mpr fun part => ?_
        have solid := (isSolid_iff.mp (isSolid_of_isNamePart part)).1
        rw [blank last last_eq] at solid
        cases solid
  have boundary : Boundary 0 gap 0 text := {
    walk := ignored.walk 0 text
    apart := fun part => by
      rw [apart] at part
      cases part
    uncommented := Or.inl fun next member => isLineEnd_of_isSolid (solid next member) }
  have split := lexemes_append (fun _ => boundary) regular
  refine ⟨split, idle_of_afterBlanks ?_ fun lexeme member => ?_⟩
  · have blank : grammar.afterBlanks (gap ++ []) = [] := ignored.afterBlanks_append
    rw [List.append_nil] at blank
    exact blank
  · exact regular lexeme (split ▸ List.mem_append_left _ member)

/-! ## Between definitions -/

/-- A definition may begin. -/
structure Scan.Ready (scan : Scan) : Prop where
  depth_eq : scan.depth = 0
  undescribed : scan.heading.any (·.described) = false
  calm : scan.heading.any (·.expectsName) = false

/-- A brace is taken for the beginning of a body. -/
def Scan.awaitsBody (scan : Scan) : Bool :=
  scan.heading.any fun heading => heading.acceptsBody && !heading.bodyClosed

section Idle

variable {scan : Scan} {lexeme : List Char}

theorem amend_withoutName (calm : scan.heading.any (·.expectsName) = false) :
    scan.amend Heading.withoutName = scan := by
  obtain ⟨depth, heading⟩ := scan
  cases heading with
  | none => rfl
  | some heading =>
      obtain ⟨kind, described, expects, accepts, closed⟩ := heading
      cases calm
      rfl

theorem step_idle (calm : scan.heading.any (·.expectsName) = false) (idle : isIdle lexeme) :
    scan.step lexeme = scan.stay := by
  cases lexeme with
  | nil => rfl
  | cons first more =>
      rw [isIdle, List.head?_cons, Option.any_some, Bool.not_eq_true'] at idle
      by_cases marked : first = '#'
      · subst marked
        rfl
      · have blank : isBlank first := by simpa [isSolid, marked] using idle
        have unnamed : isNameStart first = false := Bool.eq_false_iff.mpr fun starts => by
          rw [isSolid_of_isNamePart (isNamePart_of_isNameStart starts)] at idle
          cases idle
        rw [Scan.step_of_plain _ _ (isPlain_of_isBlank blank), unnamed]
        rw [if_neg Bool.false_ne_true, Scan.onMark, amend_withoutName calm, ite_self]

theorem goes_idle {front : List (List Char)} (calm : scan.heading.any (·.expectsName) = false)
    (idle : ∀ lexeme ∈ front, isIdle lexeme) : Goes (scan.heading.map Heading.kind) scan front scan := by
  induction front with
  | nil => exact .refl
  | cons lexeme front ih =>
      rw [List.forall_mem_cons] at idle
      have here := step_idle calm idle.1
      refine .step (by rw [here]; rfl) ?_
      rw [here]
      exact ih idle.2

end Idle

/-! ## The beginning of a definition -/

/-- A string of the grammar is one lexeme. -/
theorem lexemes_string {unit rest : List Char}
    (reads : (rule .string).Reads grammar .joined (unit ++ rest) (some rest))
    (regular : ∀ lexeme ∈ lexemes (unit ++ rest), Regular lexeme) :
    lexemes (unit ++ rest) = unit :: lexemes rest ∧ unit.head? = some '"' := by
  rcases exists_unit reads with ⟨inner, same⟩
  have unit_eq : unit = '"' :: inner := List.append_cancel_right same
  subst unit_eq
  rw [List.cons_append] at reads regular ⊢
  rw [lexemes] at regular ⊢
  have ends := drop_stringLength reads (regular _ List.mem_cons_self).2
  have length_eq : tailLength '"' (inner ++ rest) = stringLength (inner ++ rest) := rfl
  have whole := List.take_append_drop (stringLength (inner ++ rest)) (inner ++ rest)
  rw [ends] at whole
  rw [length_eq, ends, List.append_cancel_right whole]
  exact ⟨rfl, rfl⟩

/-- The keywords that begin a definition, or the brace of a query without one. -/
theorem keyword_cases {kind : Kind} {keyword : String} (member : keyword ∈ kind.beginnings)
    (unquoted : keyword ≠ "\"") :
    kind = .executable ∧ keyword = "\x7b" ∨ kindOf? keyword = some kind := by
  have listed : ∀ kind : Kind, ∀ keyword ∈ kind.beginnings, keyword ≠ "\"" →
      kind = .executable ∧ keyword = "\x7b" ∨ kindOf? keyword = some kind := by
    intro kind
    cases kind <;> decide
  exact listed kind keyword member unquoted

/-- The keywords that begin a section. -/
def sectionKeywords : List String :=
  ["query", "mutation", "subscription", "fragment", "schema", "scalar", "type", "interface", "union",
    "enum", "input", "directive", "extend"]

theorem mem_sectionKeywords {name : String} (known : (kindOf? name).isSome) : name ∈ sectionKeywords := by
  unfold kindOf? at known
  split at known
  · next listed => exact List.mem_append_left _ (List.contains_iff_mem.mp listed)
  · split at known
    · next listed =>
        have later : ["schema", "scalar", "type", "interface", "union", "enum", "input", "directive",
          "extend"] ⊆ sectionKeywords := by decide
        exact later (List.contains_iff_mem.mp listed)
    · cases known

/-- No keyword begins another one. -/
theorem tail_eq_nil {keyword : String} {tail : List Char} (known : (kindOf? keyword).isSome)
    (longer : (kindOf? (String.ofList (keyword.toList ++ tail))).isSome) : tail = [] := by
  have incomparable : ∀ one ∈ sectionKeywords, ∀ other ∈ sectionKeywords,
      one.toList <+: other.toList → one.toList = other.toList := by decide
  have same := incomparable _ (mem_sectionKeywords known) _ (mem_sectionKeywords longer)
  rw [String.toList_ofList] at same
  exact List.self_eq_append_right.mp (same (List.prefix_append _ _))

theorem exists_name {keyword : String} (known : (kindOf? keyword).isSome) :
    ∃ first letters, keyword.toList = first :: letters ∧ isNameStart first ∧
      ∀ letter ∈ letters, isNamePart letter := by
  have names : ∀ word ∈ sectionKeywords,
      word.toList.head?.any isNameStart && word.toList.tail.all isNamePart := by decide
  have name := names keyword (mem_sectionKeywords known)
  cases letters : keyword.toList with
  | nil =>
      rw [letters] at name
      cases name
  | cons first others =>
      rw [letters, Bool.and_eq_true] at name
      exact ⟨first, others, rfl, name.1, List.all_eq_true.mp name.2⟩

/-- A character with which a definition without a description begins. -/
def isLeading (first : Char) : Bool := isNameStart first || first == '{'

theorem isSolid_of_isLeading {first : Char} (leads : isLeading first) : isSolid first ∧ first ≠ '"' := by
  rw [isLeading, Bool.or_eq_true, beq_iff_eq] at leads
  rcases leads with starts | rfl
  · refine ⟨isSolid_of_isNamePart (isNamePart_of_isNameStart starts), ?_⟩
    rintro rfl
    cases starts
  · exact ⟨rfl, by decide⟩

theorem exists_letters {kind : Kind} {keyword : String} (member : keyword ∈ kind.beginnings)
    (unquoted : keyword ≠ "\"") : ∃ first letters, keyword.toList = first :: letters ∧ isLeading first := by
  rcases keyword_cases member unquoted with ⟨_, rfl⟩ | known
  · exact ⟨'{', [], rfl, rfl⟩
  · rcases exists_name (Option.isSome_of_mem known) with ⟨first, letters, same, starts, _⟩
    exact ⟨first, letters, same, by rw [isLeading, starts]; rfl⟩

/-- A keyword is a lexeme, if the lexeme that begins with it is a keyword. -/
theorem lexemes_keyword {kind : Kind} {keyword : String} {more lexeme : List Char}
    {others : List (List Char)} (member : keyword ∈ kind.beginnings) (unquoted : keyword ≠ "\"")
    (split : lexemes (keyword.toList ++ more) = lexeme :: others)
    (known : lexeme = ['{'] ∨ (kindOf? (String.ofList lexeme)).isSome) :
    lexeme = keyword.toList ∧ others = lexemes more := by
  rcases keyword_cases member unquoted with ⟨_, rfl⟩ | own
  · have brace : "\x7b".toList ++ more = '{' :: more := rfl
    rw [brace, lexemes] at split
    obtain ⟨rfl, rfl⟩ := List.cons.inj split
    exact ⟨rfl, rfl⟩
  · rcases exists_name (Option.isSome_of_mem own) with ⟨first, letters, same, starts, parts⟩
    have length_eq : tailLength first (letters ++ more) =
        ((letters ++ more).takeWhile isNamePart).length := by
      have marks : first ≠ '#' ∧ first ≠ '"' := by
        constructor <;>
          · rintro rfl
            cases starts
      simp [tailLength, marks, starts]
    rw [same, List.cons_append, lexemes, length_eq, take_takeWhile, drop_takeWhile,
      List.takeWhile_append_of_pos parts, List.dropWhile_append_of_pos parts] at split
    obtain ⟨rfl, rfl⟩ := List.cons.inj split
    rw [← List.cons_append, ← same] at known ⊢
    have longer : (kindOf? (String.ofList (keyword.toList ++ more.takeWhile isNamePart))).isSome := by
      refine known.resolve_left fun brace => ?_
      rw [same] at brace
      injection brace with brace
      subst brace
      cases starts
    have none := tail_eq_nil (Option.isSome_of_mem own) longer
    have whole : more.takeWhile isNamePart ++ more.dropWhile isNamePart = more :=
      List.takeWhile_append_dropWhile
    rw [none, List.nil_append] at whole
    rw [none, List.append_nil, whole]
    exact ⟨rfl, rfl⟩

/-- The lexemes before the keyword of a definition: none, or a description and blanks. -/
def Describes (kind : Kind) (opening : List (List Char)) : Prop :=
  opening = [] ∨ kind = .typeSystem ∧ ∃ unit gap, opening = unit :: gap ∧ unit.head? = some '"' ∧
    ∀ lexeme ∈ gap, isIdle lexeme

section Describes

variable {kind : Kind} {opening front : List (List Char)} {text : List Char}

theorem precedes_of_describes (describes : Describes kind opening) :
    ∀ lexeme ∈ opening, precedes lexeme := by
  rcases describes with rfl | ⟨_, unit, gap, rfl, quote, idle⟩
  · simp
  · rw [List.forall_mem_cons]
    refine ⟨by simp [precedes, quote], fun lexeme member => ?_⟩
    cases lexeme with
    | nil => cases idle _ member
    | cons first more =>
        have blank := idle _ member
        rw [isIdle, List.head?_cons, Option.any_some] at blank
        rw [precedes, List.head?_cons, Option.any_some, blank, Bool.or_true]

theorem depthAfter_precedes {lexeme : List Char} (before : precedes lexeme) : depthAfter 0 lexeme = 0 := by
  cases lexeme with
  | nil => rfl
  | cons first more =>
      have unopened : isOpening first = false := Bool.eq_false_iff.mpr fun opens => by
        rcases isOpening_iff.mp opens with rfl | rfl | rfl <;> cases before
      simp [depthAfter, unopened]

/-- The words of a definition begin with its keyword. -/
theorem definitionWords_eq {first : Char} {lexeme : List Char}
    (before : ∀ lexeme ∈ opening, precedes lexeme) (leads : isLeading first)
    (split : lexemes text = opening ++ (first :: lexeme) :: front) :
    definitionWords text = (first :: lexeme) :: outerWords (depthAfter 0 (first :: lexeme)) front := by
  rw [definitionWords, split]
  clear split
  induction opening with
  | nil =>
      have loud : isSilent (first :: lexeme) = false := not_isSilent (by decide) leads
      have stays : precedes (first :: lexeme) = false := by
        simp [precedes, isSolid_of_isLeading leads]
      simp [outerWords, loud, stays]
  | cons other opening ih =>
      rw [List.forall_mem_cons] at before
      rw [List.cons_append, outerWords, depthAfter_precedes before.1, ← ih before.2]
      split
      · rw [List.dropWhile_cons, if_pos before.1]
      · rfl

/-- What stands before the keyword of a definition is cut into lexemes of its own. -/
theorem exists_describes {lead : List Char}
    (described : lead = [] ∨ kind = .typeSystem ∧ ∃ unit gap, lead = unit ++ gap ∧ Ignored gap ∧
      (rule .string).Reads grammar .joined (unit ++ (gap ++ text)) (some (gap ++ text)))
    (solid : ∀ first ∈ text.head?, isSolid first)
    (regular : ∀ lexeme ∈ lexemes (lead ++ text), Regular lexeme) :
    ∃ opening, lexemes (lead ++ text) = opening ++ lexemes text ∧ Describes kind opening := by
  rcases described with rfl | ⟨own, unit, gap, rfl, ignored, reads⟩
  · exact ⟨[], rfl, Or.inl rfl⟩
  · rw [List.append_assoc] at regular ⊢
    rcases lexemes_string reads regular with ⟨split, quote⟩
    rw [split, List.forall_mem_cons] at regular
    rcases lexemes_gap ignored solid regular.2 with ⟨others, idle⟩
    refine ⟨unit :: lexemes gap, ?_, Or.inr ⟨own, unit, lexemes gap, rfl, quote, idle⟩⟩
    rw [split, others]
    rfl

end Describes

/-- A definition does not end before its keyword. -/
theorem keyword_not_after {kind : Kind} {lead : List Char} {keyword : String} {after more : List Char}
    {final : Place} {rest : List Char} (headed : Headed kind lead keyword more final rest)
    (ends : rest = after ∨ rest = grammar.afterBlanks after)
    (solid : grammar.afterBlanks (keyword.toList ++ more) = keyword.toList ++ more)
    {skipped : List (List Char)} (regular : ∀ lexeme ∈ skipped, Regular lexeme)
    (idle : ∀ lexeme ∈ skipped, isIdle lexeme) :
    lexemes after ≠ skipped ++ lexemes (keyword.toList ++ more) := by
  intro split
  have blanks := congrArg List.length (afterBlanks_idle split regular idle)
  rw [solid, List.length_append] at blanks
  have longer : (grammar.afterBlanks after).length ≤ rest.length := by
    rcases ends with rfl | rfl
    · exact (orderly.afterBlanks_suffix _).length_le
    · exact Nat.le_refl _
  have shorter := headed.reads_on
  have bound := (orderly.afterBlanks_suffix more).length_le
  omega

theorem idle_of_describes {kind : Kind} {front skipped : List (List Char)}
    (describes : Describes kind (front ++ skipped)) (some : front ≠ []) :
    ∀ lexeme ∈ skipped, isIdle lexeme := by
  rcases describes with none | ⟨_, unit, gap, same, _, idle⟩
  · exact absurd (List.append_eq_nil_iff.mp none).1 some
  · cases front with
    | nil => exact absurd rfl some
    | cons first front =>
        rw [List.cons_append] at same
        obtain ⟨_, rfl⟩ := List.cons.inj same
        exact fun lexeme member => idle lexeme (List.mem_append_right _ member)

/-- The lexemes of a definition that is read from `text ++ after`. -/
theorem exists_lexemes {kind : Kind} {lead : List Char} {keyword : String} {text after more : List Char}
    {final : Place} {rest : List Char} (headed : Headed kind lead keyword more final rest)
    (whole : text ++ after = lead ++ (keyword.toList ++ more)) (some : text ≠ [])
    (ends : rest = after ∨ rest = grammar.afterBlanks after)
    (regular : ∀ lexeme ∈ lexemes (text ++ after), Regular lexeme)
    (split : lexemes (text ++ after) = lexemes text ++ lexemes after)
    (known : ∀ first ∈ (definitionWords text).head?,
      first = ['{'] ∨ (kindOf? (String.ofList first)).isSome) :
    ∃ opening front, Describes kind opening ∧ lexemes text = opening ++ keyword.toList :: front ∧
      lexemes more = front ++ lexemes after ∧
      definitionWords text = keyword.toList :: outerWords (depthAfter 0 keyword.toList) front := by
  rcases exists_letters headed.member headed.unquoted with ⟨first, letters, same, leads⟩
  have solid : ∀ head ∈ (keyword.toList ++ more).head?, isSolid head := by
    rw [same]
    rintro head ⟨⟩
    exact (isSolid_of_isLeading leads).1
  have begins_eq : ∃ lexeme others, lexemes (keyword.toList ++ more) = (first :: lexeme) :: others := by
    rw [same, List.cons_append, lexemes]
    exact ⟨_, _, rfl⟩
  rcases begins_eq with ⟨lexeme, others, begins_eq⟩
  rw [whole] at regular
  rcases exists_describes headed.described solid regular with ⟨opening, opening_eq, describes⟩
  rw [← whole, split] at opening_eq
  have unblank : grammar.afterBlanks (keyword.toList ++ more) = keyword.toList ++ more := by
    rw [same]
    exact afterBlanks_solid (isSolid_of_isLeading leads).1
  have lexed : lexemes text ≠ [] := fun none => some (by rw [← flatten_lexemes text, none]; rfl)
  -- The text ends inside of the description, or after it.
  rcases List.append_eq_append_iff.mp opening_eq with ⟨skipped, rfl, others'⟩ | ⟨front, same, others'⟩
  · have idle := idle_of_describes describes lexed
    refine absurd others' (keyword_not_after headed ends unblank (fun lexeme member => ?_) idle)
    apply regular
    rw [← whole, split, others']
    exact List.mem_append_right _ (List.mem_append_left _ member)
  · cases front with
    | nil =>
        have apart : lexemes after ≠ [] ++ lexemes (keyword.toList ++ more) :=
          keyword_not_after headed ends unblank (by simp) (by simp)
        exact absurd others'.symm apart
    | cons lexeme' front =>
        rw [begins_eq, List.cons_append] at others'
        obtain ⟨rfl, rfl⟩ := List.cons.inj others'
        have words := definitionWords_eq (precedes_of_describes describes) leads same
        rcases lexemes_keyword headed.member headed.unquoted begins_eq
          (known (first :: lexeme) (by rw [words]; rfl)) with ⟨keyword_eq, others⟩
        rw [keyword_eq] at words same
        exact ⟨opening, front, describes, same, others.symm, words⟩

/-! ## The scan over a definition -/

section Definition

variable {scan : Scan} {kind : Kind} {keyword : String} {opening : List (List Char)}

/-- The state after the keyword of a definition. -/
def Scan.afterKeyword (kind : Kind) (keyword : String) : Scan :=
  .within (.afterKeyword keyword) kind (!bodilessKeywords.contains keyword) (keyword != "\x7b")

theorem step_of_keyword (scan : Scan) (known : kindOf? keyword = some kind) :
    scan.step keyword.toList = scan.onName keyword := by
  rcases exists_name (Option.isSome_of_mem known) with ⟨first, letters, same, starts, _⟩
  have plain := isPlain_of_isNamePart (isNamePart_of_isNameStart starts)
  rw [same, Scan.step_of_plain _ _ plain, if_pos starts, ← same, String.ofList_toList]

theorem afterKeyword_eq (known : kindOf? keyword = some kind) : Scan.afterKeyword kind keyword =
    ⟨0, some (Heading.withKeyword { kind } keyword)⟩ := by
  have named : keyword ≠ "\x7b" := by
    rintro rfl
    cases known
  simp only [Scan.afterKeyword, Place.afterKeyword, if_neg named, bne_iff_ne.mpr named]
  rfl

/-- A keyword begins a section of its kind. -/
theorem step_keyword (ready : scan.Ready) (member : keyword ∈ kind.beginnings) (unquoted : keyword ≠ "\"")
    (brace : keyword = "\x7b" → scan.awaitsBody = false) :
    scan.step keyword.toList = ⟨Scan.afterKeyword kind keyword, true⟩ := by
  obtain ⟨depth, heading⟩ := scan
  obtain ⟨rfl, undescribed, calm⟩ := ready
  rcases keyword_cases member unquoted with ⟨rfl, rfl⟩ | known
  · have unawaited := brace rfl
    have letters : "\x7b".toList = ['{'] := rfl
    rw [Scan.awaitsBody] at unawaited
    rw [letters, Scan.step_of_opening _ _ rfl]
    simp only [Scan.onOpening, if_true, unawaited]
    rfl
  · rw [step_of_keyword _ known, afterKeyword_eq known]
    simp only [Scan.onName, if_true, undescribed, calm, known]
    rfl

/-- The state after a description. -/
def Scan.described : Scan := ⟨0, some { kind := .typeSystem, described := true }⟩

theorem step_description {unit : List Char} (ready : scan.Ready) (quote : unit.head? = some '"') :
    scan.step unit = ⟨Scan.described, true⟩ := by
  obtain ⟨depth, heading⟩ := scan
  obtain ⟨rfl, undescribed, _⟩ := ready
  cases unit with
  | nil => cases quote
  | cons first more =>
      cases quote
      change Scan.onString _ = _
      simp only [Scan.onString, undescribed]
      rfl

/-- After a description the keyword belongs to the section that the description began. -/
theorem step_described (known : kindOf? keyword = some .typeSystem) :
    (Scan.described.step keyword.toList).scan = Scan.afterKeyword .typeSystem keyword := by
  rw [step_of_keyword _ known, afterKeyword_eq known]
  rfl

/-- The scan goes over the beginning of a definition into a section of its kind. -/
theorem goes_opening (ready : scan.Ready) (describes : Describes kind opening)
    (member : keyword ∈ kind.beginnings) (unquoted : keyword ≠ "\"")
    (brace : keyword = "\x7b" → scan.awaitsBody = false) :
    Goes (some kind) scan (opening ++ [keyword.toList]) (Scan.afterKeyword kind keyword) ∧
      ∀ back, ∃ part ∈ (sectionsFrom scan (opening ++ keyword.toList :: back)).2, part.kind = kind := by
  rcases describes with rfl | ⟨rfl, unit, gap, rfl, quote, idle⟩
  · have here := step_keyword ready member unquoted brace
    constructor
    · refine .step (by rw [here]; rfl) ?_
      rw [here]
      exact .refl
    · intro back
      rw [List.nil_append, sectionsFrom_of_enters (by rw [here]) (by rw [here]; rfl)]
      exact ⟨_, List.mem_cons_self, rfl⟩
  · have known : kindOf? keyword = some .typeSystem := by
      rcases keyword_cases member unquoted with ⟨absurd, _⟩ | known
      · cases absurd
      · exact known
    have here := step_description ready quote
    constructor
    · refine .step (by rw [here]; rfl) ?_
      rw [here]
      have calm : (Scan.described.heading.any (·.expectsName)) = false := rfl
      refine (goes_idle calm idle).trans (.step ?_ ?_)
      · rw [step_described known]
        rfl
      · rw [step_described known]
        exact .refl
    · intro back
      rw [List.cons_append, sectionsFrom_of_enters (by rw [here]) (by rw [here]; rfl)]
      exact ⟨_, List.mem_cons_self, rfl⟩

theorem calm_afterKeyword (other : Place.afterKeyword keyword ≠ .outside) :
    (keyword != "\x7b") = false := by
  rw [Place.afterKeyword] at other
  split at other
  · next brace => simp [brace]
  · exact absurd rfl other

/-- After the keyword the scan keeps to the section, and expects no name at its end. -/
theorem goes_headed {lead more rest after : List Char} {final : Place} {front : List (List Char)}
    (headed : Headed kind lead keyword more final rest)
    (ends : rest = after ∨ rest = grammar.afterBlanks after)
    (split : lexemes more = front ++ lexemes after) (regular : ∀ lexeme ∈ front, Regular lexeme)
    (names : ∀ word ∈ (outerWords (depthAfter 0 keyword.toList) front).tail,
      misleads kind word = false) :
    Goes (some kind) (Scan.afterKeyword kind keyword) front
      (Scan.within final kind (!bodilessKeywords.contains keyword) false) := by
  have short : rest.length ≤ after.length := by
    rcases ends with rfl | rfl
    · exact Nat.le_refl _
    · exact (orderly.afterBlanks_suffix after).length_le
  have body : final = .outside ∨ (!bodilessKeywords.contains keyword) := by
    rcases headed.final_eq with ⟨outside, _⟩ | ⟨_, accepts⟩
    · exact Or.inl outside
    · exact Or.inr (by simpa using accepts)
  have own : kind = .executable → (!bodilessKeywords.contains keyword) := by
    rintro rfl
    rcases headed.final_eq with ⟨_, absurd⟩ | ⟨_, accepts⟩
    · cases absurd
    · simpa using accepts
  have clear : (Place.afterKeyword keyword).InBody ∨ Clear kind (keyword != "\x7b")
      (outerWords (Place.afterKeyword keyword).depth front) := by
    by_cases brace : keyword = "\x7b"
    · rw [brace]
      exact Or.inl (Or.inr ⟨0, rfl⟩)
    · right
      have unopened : depthAfter 0 keyword.toList = 0 := by
        have listed : ∀ kind : Kind, ∀ word ∈ kind.beginnings, word ≠ "\x7b" →
            depthAfter 0 word.toList = 0 := by
          intro kind
          cases kind <;> decide
        exact listed kind keyword headed.member brace
      rw [unopened] at names
      rw [Place.afterKeyword, if_neg brace, bne_iff_ne.mpr brace]
      exact names
  rcases goes_of_pass split regular headed.pass short body own calm_afterKeyword clear with
    ⟨place, expects, goes, pass, calm, expecting⟩
  have place_eq := pass.place_eq ends
  subst place_eq
  have calmed : expects = false := by
    refine Bool.eq_false_iff.mpr fun set => ?_
    rcases headed.final_eq with ⟨_, rfl⟩ | ⟨rfl, _⟩
    · rcases expecting set with absurd | ⟨_, blanks⟩
      · cases absurd
      · -- The definition goes on after its keyword.
        have longer := headed.reads_on
        rw [blanks] at longer
        rcases ends with rfl | rfl
        · exact absurd (orderly.afterBlanks_suffix _).length_le (Nat.not_le.mpr longer)
        · exact absurd longer (Nat.lt_irrefl _)
    · rw [calm (by simp)] at set
      cases set
  rw [calmed] at goes
  exact goes

end Definition

/--
A definition that the scan recognizes: its keyword is a word of its own, none of the words after
its name leads to another section, no name goes on after it, and a brace after it is not taken for
its body.
-/
structure Recognizable (kind : Kind) (text after : List Char) : Prop where
  keyword : ∀ first ∈ (definitionWords text).head?,
    first = ['{'] ∨ (kindOf? (String.ofList first)).isSome
  names : ∀ word ∈ (definitionWords text).drop 2, misleads kind word = false
  apart : text.getLast?.any isNamePart → after.head?.any isNamePart = false
  brace : "\x7b".toList <+: grammar.afterBlanks after → text.getLast? = some '}' ∨
    ∃ first ∈ (definitionWords text).head?, String.ofList first ∈ bodilessKeywords

section Recognizable

variable {scan : Scan} {kind : Kind} {text after : List Char}

/-- The lexemes of a text are those of a definition and of what follows it. -/
theorem lexemes_extent (extent : Extent kind text after)
    (apart : text.getLast?.any isNamePart → after.head?.any isNamePart = false)
    (regular : ∀ lexeme ∈ lexemes (text ++ after), Regular lexeme) :
    lexemes (text ++ after) = lexemes text ++ lexemes after := by
  refine lexemes_append (fun _ => ⟨extent.walk, apart, Or.inr ?_⟩) regular
  rcases extent with ⟨front, final, rfl, spans⟩
  refine ⟨final, ?_⟩
  have unmarked := (isSolid_iff.mp spans.isSolid_final.1).2
  rw [List.append_assoc]
  rcases spans.unit with ⟨_, walk⟩ | ⟨_, walk⟩
  · exact ⟨1, List.getLast?_concat, unmarked, walk⟩
  · exact ⟨0, List.getLast?_concat, unmarked, walk⟩

/-- A closing brace at the end of a definition is its last lexeme. -/
theorem exists_lexemes_brace (extent : Extent kind text after) (closed : text.getLast? = some '}')
    (regular : ∀ lexeme ∈ lexemes (text ++ after), Regular lexeme)
    (split : lexemes (text ++ after) = lexemes text ++ lexemes after) :
    ∃ front, lexemes text = front ++ [['}']] := by
  rcases extent with ⟨front, final, rfl, spans⟩
  rw [List.getLast?_concat] at closed
  cases closed
  rw [List.append_assoc] at regular
  have boundary : ∃ depth, Boundary 0 front depth ('}' :: after) := by
    have inner : ∀ next ∈ ('}' :: after).head?, isLineEnd next = false := by
      rintro next ⟨⟩
      rfl
    rcases spans.unit with ⟨_, walk⟩ | ⟨plain, _⟩
    · exact ⟨1, walk, fun _ => rfl, Or.inl inner⟩
    · cases plain
  rcases boundary with ⟨depth, boundary⟩
  have brace := lexemes_append (fun _ => boundary) regular
  have last : lexemes ('}' :: after) = [['}']] ++ lexemes after := by
    rw [lexemes]
    rfl
  rw [last, ← List.append_assoc] at brace
  rw [List.append_assoc] at split
  exact ⟨lexemes front, List.append_cancel_right (split.symm.trans brace)⟩

/-- After a closing brace outside of brackets no body is awaited. -/
theorem awaitsBody_of_brace {front : List (List Char)} {final : Scan} {kind : Option Kind}
    (goes : Goes kind scan (front ++ [['}']]) final) (depth_eq : final.depth = 0) :
    final.awaitsBody = false := by
  induction front generalizing scan with
  | nil =>
      cases goes with
      | step _ more =>
          cases more
          obtain ⟨depth, heading⟩ := scan
          change (Scan.onClosing ⟨depth, heading⟩ true).scan.depth = 0 at depth_eq
          change (Scan.onClosing ⟨depth, heading⟩ true).scan.awaitsBody = false
          simp only [Scan.onClosing] at depth_eq ⊢
          split at depth_eq
          · next closes =>
              rw [if_pos closes]
              cases heading with
              | none => rfl
              | some heading => simp [Scan.awaitsBody, Scan.stay, Scan.amend]
          · next opened => exact absurd depth_eq (by simpa [Scan.stay] using opened)
  | cons lexeme front ih =>
      cases goes with
      | step _ more => exact ih more

theorem ready_within {final : Place} {accepts : Bool} (outside : final.depth = 0) :
    (Scan.within final kind accepts false).Ready where
  depth_eq := outside
  undescribed := rfl
  calm := rfl

/-- What the scan does with a definition that it recognizes. -/
structure Sections (scan : Scan) (kind : Kind) (text after : List Char) (final : Scan) : Prop where
  goes : Goes (some kind) scan (lexemes text) final
  ready : final.Ready
  begins : ∀ back, ∃ part ∈ (sectionsFrom scan (lexemes text ++ back)).2, part.kind = kind
  brace : "\x7b".toList <+: grammar.afterBlanks after →
    final.awaitsBody = false ∧ (text.getLast? = some '}' ∨ Bodiless (text ++ after))

/-- A definition takes the scan through a section of its kind. -/
theorem exists_sections (extent : Extent kind text after) (recognizable : Recognizable kind text after)
    (regular : ∀ lexeme ∈ lexemes (text ++ after), Regular lexeme) (ready : scan.Ready)
    (unawaited : "\x7b".toList <+: text → scan.awaitsBody = false) :
    ∃ final, Sections scan kind text after final := by
  have split := lexemes_extent extent recognizable.apart regular
  rcases extent.taken.reads with ⟨rest, reads, ends⟩
  rcases exists_headed extent.solid reads with ⟨lead, keyword, more, final, whole, headed⟩
  rcases exists_lexemes headed whole extent.ne_nil ends regular split recognizable.keyword with
    ⟨opening, front, describes, text_eq, more_eq, words⟩
  have brace : keyword = "\x7b" → scan.awaitsBody = false := by
    rintro rfl
    rcases describes with rfl | ⟨rfl, _⟩
    · apply unawaited
      rw [← flatten_lexemes text, text_eq]
      exact ⟨front.flatten, rfl⟩
    · exact absurd headed.member (by decide)
  -- The scan enters the section at its keyword, and stays in it up to the end.
  rcases goes_opening ready describes headed.member headed.unquoted brace with ⟨enters, begins⟩
  have goes := goes_headed headed ends more_eq
    (fun lexeme member => regular lexeme (by
      rw [split, text_eq]
      simp [member]))
    (fun word member => recognizable.names word (by
      rw [words]
      simpa using member))
  have all := enters.trans goes
  rw [List.append_assoc, List.singleton_append, ← text_eq] at all
  have ready' : (Scan.within final kind (!bodilessKeywords.contains keyword) false).Ready := by
    apply ready_within
    rcases headed.final_eq with ⟨rfl, _⟩ | ⟨rfl, _⟩ <;> rfl
  refine ⟨_, all, ready', fun back => ?_, fun next => ?_⟩
  · rw [text_eq, List.append_assoc, List.cons_append]
    exact begins _
  · rcases recognizable.brace next with closed | ⟨first, head, bodiless⟩
    · rcases exists_lexemes_brace extent closed regular split with ⟨inner, last⟩
      rw [last] at all
      exact ⟨awaitsBody_of_brace all ready'.depth_eq, Or.inl closed⟩
    · rw [words] at head
      cases head
      rw [String.ofList_toList] at bodiless
      refine ⟨?_, Or.inr (whole ▸ headed.bodiless bodiless)⟩
      simp [Scan.awaitsBody, Scan.within, bodiless]

end Recognizable

end PreviewLint.Outline
