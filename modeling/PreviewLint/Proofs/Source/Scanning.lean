import PreviewLint.Proofs.GraphQL.Outside
import PreviewLint.Proofs.Source.Alignment

/-!
# The scan over a definition

The scan that finds the sections of a text looks at lexemes outside of brackets only. Over a
definition it keeps to one section of the kind of the definition, as long as no keyword among its
words leads it astray, and at the end of the definition it is ready for the next one.

What the scan knows inside of a definition is determined by the place that it has reached there,
so that its steps follow the passage of the grammar through the definition.
-/

namespace PreviewLint.Outline

open GraphQL Peg

/-! ## Words outside of brackets -/

/-- How many brackets are open after a lexeme. -/
def depthAfter (depth : Nat) (lexeme : List Char) : Nat :=
  if lexeme.head?.any isOpening then depth + 1
  else if lexeme.head?.any isClosing then depth - 1
  else depth

/-- A comment, or a character that may stand between a keyword and the name of a definition. -/
def isSilent (lexeme : List Char) : Bool :=
  lexeme.head?.any fun first => first == '#' || Scan.isGap first

/-- The lexemes outside of brackets, apart from silent ones. -/
def outerWords (depth : Nat) : List (List Char) → List (List Char)
  | [] => []
  | lexeme :: rest =>
    if depth = 0 && !isSilent lexeme then lexeme :: outerWords (depthAfter depth lexeme) rest
    else outerWords (depthAfter depth lexeme) rest

/-- A description, or a blank or a comment. -/
def precedes (lexeme : List Char) : Bool :=
  lexeme.head?.any fun first => first == '"' || !isSolid first

/-- The words of a definition outside of brackets, from its keyword on. -/
def definitionWords (text : List Char) : List (List Char) :=
  (outerWords 0 (lexemes text)).dropWhile precedes

/--
A word that begins a section where it does not stand for one. In an executable definition a
keyword of its own kind does no harm, since its section has a body in any case.
-/
def misleads (kind : Kind) (word : List Char) : Bool :=
  match kind with
  | .executable => kindOf? (String.ofList word) == some .typeSystem
  | .typeSystem => (kindOf? (String.ofList word)).isSome

/-! ## Going over lexemes -/

/-- The scan goes over some lexemes, and is in a section of some kind after each of them. -/
inductive Goes (kind : Option Kind) : Scan → List (List Char) → Scan → Prop
  | refl {scan} : Goes kind scan [] scan
  | step {scan lexeme lexemes final}
      (here : (scan.step lexeme).scan.heading.map Heading.kind = kind)
      (more : Goes kind (scan.step lexeme).scan lexemes final) : Goes kind scan (lexeme :: lexemes) final

namespace Goes

variable {kind : Option Kind} {scan middle final : Scan} {front others back : List (List Char)}

theorem trans (first : Goes kind scan front middle) (second : Goes kind middle others final) :
    Goes kind scan (front ++ others) final := by
  induction first with
  | refl => exact second
  | step here _ ih => exact .step here (ih second)

/-- What a half keeps of the lexemes depends on the kind of the section only. -/
theorem keptFrom_append (goes : Goes kind scan front final) (half : Kind) :
    keptFrom half scan (front ++ back) = keptIn half kind front.flatten ++ keptFrom half final back := by
  induction goes with
  | refl => rw [List.nil_append, List.flatten_nil, keptIn_nil, List.nil_append]
  | step here _ ih =>
      rw [List.cons_append, keptFrom_cons, here, ih, List.flatten_cons, keptIn_append, List.append_assoc]

/-- The sections behind the lexemes are sections of the whole. -/
theorem sections_subset (goes : Goes kind scan front final) :
    (sectionsFrom final back).2 ⊆ (sectionsFrom scan (front ++ back)).2 := by
  induction goes with
  | refl => exact fun _ member => member
  | @step scan lexeme lexemes final _ _ ih =>
      rw [List.cons_append]
      rcases scan.step_cases lexeme with stays | ⟨⟨begins, heading, found⟩, _⟩
      · rw [sectionsFrom_of_stays stays]
        exact ih
      · rw [sectionsFrom_of_enters begins found]
        exact fun part member => List.mem_cons_of_mem _ (ih member)

end Goes

/-! ## The state at a place -/

/--
The state of the scan at a place of a definition: `accepts` tells whether its keyword allows a
body, and `expects` whether its name may come next.
-/
def Scan.within (place : Place) (kind : Kind) (accepts expects : Bool) : Scan where
  depth := place.depth
  heading := some {
    kind
    expectsName := expects
    acceptsBody := accepts
    bodyClosed := place = .closed }

namespace Scan

variable (scan : Scan) {first : Char} (more : List Char)

theorem step_of_opening (opens : isOpening first) :
    scan.step (first :: more) = scan.onOpening (first == '{') := by
  rcases isOpening_iff.mp opens with rfl | rfl | rfl <;> rfl

theorem step_of_closing (closes : isClosing first) :
    scan.step (first :: more) = scan.onClosing (first == '}') := by
  rcases isClosing_iff.mp closes with rfl | rfl | rfl <;> rfl

theorem step_of_plain (plain : isPlain first) :
    scan.step (first :: more) =
      if isNameStart first then scan.onName (String.ofList (first :: more)) else scan.onMark first := by
  simp only [isPlain, isOpening, isClosing, Bool.and_eq_true, Bool.not_eq_true', bne_iff_ne] at plain
  obtain ⟨⟨⟨unopened, unclosed⟩, unquoted⟩, unmarked⟩ := plain
  simp only [step, beq_eq_false_iff_ne.mpr unmarked, beq_eq_false_iff_ne.mpr unquoted, unopened,
    unclosed, Bool.false_eq_true, if_false]

end Scan

section Step

variable {place after : Place} {kind : Kind} {accepts expects : Bool} {first : Char} {more : List Char}

/-- After an opening bracket no name is expected. -/
theorem step_opening (opens : isOpening first) (moves : place.next first = some after)
    (calm : place ≠ .outside → expects = false) (body : after = .inside true 0 → accepts) :
    (Scan.within place kind accepts expects).step (first :: more) =
      (Scan.within after kind accepts false).stay := by
  rw [Scan.step_of_opening _ _ opens]
  cases place with
  | outside =>
      simp only [Place.next, opens, if_true, Option.some.injEq] at moves
      subst moves
      cases brace : first == '{' with
      | false => rfl
      | true =>
          rw [body (by rw [brace])]
          rfl
  | inside inner depth =>
      simp only [Place.next, opens, if_true, Option.some.injEq] at moves
      subst moves
      rw [calm (by simp)]
      rfl
  | closed => cases moves

theorem step_closing (closes : isClosing first) (moves : place.next first = some after)
    (calm : place ≠ .outside → expects = false) :
    (Scan.within place kind accepts expects).step (first :: more) =
      (Scan.within after kind accepts false).stay := by
  rw [Scan.step_of_closing _ _ closes]
  rcases Place.exists_inside closes moves with ⟨body, depth, rfl, ⟨rfl, same, rfl⟩ | ⟨outer, rfl, rfl⟩⟩
  · rw [calm (by simp), ← same]
    cases body <;> rfl
  · rw [calm (by simp)]
    rfl

theorem step_inside {body : Bool} {depth : Nat} (plain : isPlain first) :
    (Scan.within (.inside body depth) kind accepts expects).step (first :: more) =
      (Scan.within (.inside body depth) kind accepts expects).stay := by
  rw [Scan.step_of_plain _ _ plain]
  split <;> rfl

/-- The keywords of executable definitions allow a body. -/
theorem accepts_of_executable {name : String} (keyword : kindOf? name = some .executable) :
    ["scalar", "union", "directive"].contains name = false := by
  unfold kindOf? at keyword
  split at keyword
  · next listed =>
      have without : ∀ name ∈ ["query", "mutation", "subscription", "fragment"],
          ["scalar", "union", "directive"].contains name = false := by decide
      exact without name (List.contains_iff_mem.mp listed)
  · split at keyword <;> cases keyword

/-- A name outside of brackets is taken for that of the definition, or it is passed over. -/
theorem step_name (starts : isNameStart first) (own : kind = .executable → accepts)
    (harmless : expects = false → misleads kind (first :: more) = false) :
    ∃ expects', ((Scan.within .outside kind accepts expects).step (first :: more)).scan =
      Scan.within .outside kind accepts expects' ∧ (expects' → kind = .executable) := by
  rw [Scan.step_of_plain _ _ (isPlain_of_isNamePart (isNamePart_of_isNameStart starts)), if_pos starts]
  cases expects with
  | true => exact ⟨false, rfl, by simp⟩
  | false =>
      have calm := harmless rfl
      unfold misleads at calm
      generalize String.ofList (first :: more) = name at calm ⊢
      cases found : kindOf? name with
      | none => exact ⟨false, by simp [Scan.onName, Scan.within, Place.depth, found, Scan.stay], by simp⟩
      | some other =>
          rw [found] at calm
          cases kind with
          | typeSystem => cases calm
          | executable =>
              cases other with
              | typeSystem => cases calm
              | executable =>
                  have body := accepts_of_executable found
                  refine ⟨true, ?_, fun _ => rfl⟩
                  simp only [Scan.onName, Scan.within, Place.depth, found, Scan.begin,
                    Heading.withKeyword, body, own rfl]
                  rfl

/-- Any other character outside of brackets keeps the name away, unless it is silent. -/
theorem step_mark (plain : isPlain first) (unnamed : isNameStart first = false) :
    ((Scan.within .outside kind accepts expects).step (first :: more)).scan =
      Scan.within .outside kind accepts (expects && Scan.isGap first) := by
  rw [Scan.step_of_plain _ _ plain, unnamed]
  cases gap : Scan.isGap first with
  | true => simp [Scan.onMark, Scan.within, Place.depth, gap, Scan.stay]
  | false =>
      simp [Scan.onMark, Scan.within, Place.depth, gap, Scan.stay, Scan.amend, Heading.withoutName]

end Step

/-! ## The scan along a passage -/

theorem depthAfter_of_plain {depth : Nat} {first : Char} {more : List Char}
    (unopened : isOpening first = false) (unclosed : isClosing first = false) :
    depthAfter depth (first :: more) = depth := by
  simp [depthAfter, unopened, unclosed]

/-- Blanks and comments are passed over lexeme by lexeme. -/
theorem afterBlanks_lexeme {first : Char} {text : List Char}
    (regular : Regular (first :: text.take (tailLength first text))) (idle : isSolid first = false) :
    grammar.afterBlanks (first :: text) = grammar.afterBlanks (text.drop (tailLength first text)) := by
  rcases tailLength_cases first with ⟨rfl, size⟩ | ⟨rfl, _⟩ | ⟨starts, _⟩ | ⟨single, size⟩
  · rw [size] at regular ⊢
    rw [take_takeWhile] at regular
    rw [drop_takeWhile]
    rcases comment_units regular.1 with ⟨body, tail, lexeme, inside, tail_eq⟩
    have ended := ends_comment (kept_refl (text.dropWhile (· != '\n')))
    have whole : text.takeWhile (· != '\n') ++ text.dropWhile (· != '\n') = text :=
      List.takeWhile_append_dropWhile
    rw [lexeme, List.append_assoc] at whole
    generalize text.dropWhile (· != '\n') = after at *
    rw [afterBlanks_comment, ← whole, afterComment_append inside]
    rcases tail_eq with rfl | rfl
    · cases after with
      | nil => rfl
      | cons ending after =>
          have ends := ended ending rfl
          rw [List.nil_append, afterComment_lineEnd ends, afterBlanks_blank (isBlank_of_isLineEnd ends)]
    · exact afterComment_lineEnd rfl
  · cases idle
  · rw [isSolid_of_isNamePart (isNamePart_of_isNameStart starts)] at idle
    cases idle
  · rw [size]
    exact afterBlanks_blank (by simpa [isSolid, single.unmarked] using idle)

theorem not_isSilent {accepts : Char → Bool} {first : Char} {more : List Char}
    (loud : "# \t\n\x0c\r,".toList.any accepts = false) (accepted : accepts first) :
    isSilent (first :: more) = false := by
  refine Bool.eq_false_iff.mpr fun silent => ?_
  have listed : first ∈ "# \t\n\x0c\r,".toList := by
    simp only [isSilent, Scan.isGap, List.head?_cons, Option.any_some, Bool.or_eq_true,
      beq_iff_eq] at silent
    rcases silent with rfl | ((((rfl | rfl) | rfl) | rfl) | rfl) | rfl <;> decide
  rw [List.any_eq_true.mpr ⟨first, listed, accepted⟩] at loud
  cases loud

section Passage

variable {place final : Place} {kind : Kind} {accepts expects : Bool} {first : Char}
  {text rest : List Char}

/-- The place and the expectations after a lexeme, and how they come from those before it. -/
structure Advance (place : Place) (kind : Kind) (accepts expects : Bool) (lexeme : List Char)
    (after : Place) (expects' : Bool) : Prop where
  scan_eq : ((Scan.within place kind accepts expects).step lexeme).scan =
    Scan.within after kind accepts expects'
  depth_eq : after.depth = depthAfter place.depth lexeme
  calm : after ≠ .outside → expects' = false
  keeps : isSilent lexeme → expects' = expects
  expecting : expects' → kind = .executable ∨ expects ∧ isSilent lexeme
  body : place.InBody → after.InBody

theorem advance_still {lexeme : List Char}
    (stays : (Scan.within place kind accepts expects).step lexeme =
      (Scan.within place kind accepts expects).stay)
    (depth_eq : depthAfter place.depth lexeme = place.depth)
    (calm : place ≠ .outside → expects = false) (silent : expects → isSilent lexeme) :
    Advance place kind accepts expects lexeme place expects where
  scan_eq := by rw [stays, Scan.stay]
  depth_eq := depth_eq.symm
  calm := calm
  keeps _ := rfl
  expecting set := Or.inr ⟨set, silent set⟩
  body := id

theorem advance_calm {lexeme : List Char} {after : Place}
    (stays : (Scan.within place kind accepts expects).step lexeme =
      (Scan.within after kind accepts false).stay)
    (depth_eq : after.depth = depthAfter place.depth lexeme) (noticed : isSilent lexeme = false)
    (body : place.InBody → after.InBody) : Advance place kind accepts expects lexeme after false where
  scan_eq := by rw [stays, Scan.stay]
  depth_eq := depth_eq
  calm _ := rfl
  keeps silent := by
    rw [noticed] at silent
    cases silent
  expecting := by simp
  body := body

theorem exists_advance_name (starts : isNameStart first) (pass : Pass place (first :: text) final rest)
    (moves : rest.length ≤ text.length) (short : rest.length ≤ (text.dropWhile isNamePart).length)
    (own : kind = .executable → accepts) (calm : place ≠ .outside → expects = false)
    (harmless : isNameStart first → place = .outside → expects = false →
      misleads kind (first :: text.takeWhile isNamePart) = false) :
    ∃ after expects', Pass after (text.dropWhile isNamePart) final rest ∧
      Advance place kind accepts expects (first :: text.takeWhile isNamePart) after expects' := by
  have parts : ∀ character ∈ first :: text.takeWhile isNamePart, isNamePart character :=
    isNamePart_of_mem_name starts (List.all_eq_true.mp List.all_takeWhile)
  have plain := isPlain_of_isNamePart (parts first List.mem_cons_self)
  obtain ⟨unopened, unclosed, _⟩ := isPlain_iff.mp plain
  have more : Pass place (text.dropWhile isNamePart) final rest := by
    have whole : (first :: text.takeWhile isNamePart) ++ text.dropWhile isNamePart = first :: text := by
      rw [List.cons_append, List.takeWhile_append_dropWhile]
    rw [← whole] at pass
    exact pass.of_ordinary (fun character member => isOrdinary_of_isNamePart (parts character member)) short
  have depth_eq : ∀ depth, depthAfter depth (first :: text.takeWhile isNamePart) = depth :=
    fun _ => depthAfter_of_plain unopened unclosed
  cases place with
  | outside =>
      rcases step_name starts own (harmless starts rfl) with ⟨expects', scan_eq, again⟩
      refine ⟨.outside, expects', more, scan_eq, (depth_eq _).symm, ?_, ?_, ?_, id⟩
      · exact fun other => absurd rfl other
      · intro silent
        rw [not_isSilent (by decide) starts] at silent
        cases silent
      · exact fun set => Or.inl (again set)
  | inside body depth =>
      refine ⟨_, expects, more, advance_still (step_inside plain) (depth_eq _) calm fun set => ?_⟩
      rw [calm (by simp)] at set
      cases set
  | closed => exact absurd rfl (pass.running moves)

theorem exists_advance_mark (plain : isPlain first) (unnamed : isNameStart first = false)
    (running : place ≠ .closed) (calm : place ≠ .outside → expects = false) :
    ∃ expects', Advance place kind accepts expects [first] place expects' := by
  obtain ⟨unopened, unclosed, _⟩ := isPlain_iff.mp plain
  have depth_eq : ∀ depth, depthAfter depth [first] = depth :=
    fun _ => depthAfter_of_plain unopened unclosed
  cases place with
  | outside =>
      have silent_eq : isSilent [first] = Scan.isGap first := by
        simp [isSilent, (isPlain_iff.mp plain).2.2.2]
      refine ⟨expects && Scan.isGap first, step_mark plain unnamed, (depth_eq _).symm, ?_, ?_, ?_, id⟩
      · exact fun other => absurd rfl other
      · intro silent
        rw [← silent_eq, silent, Bool.and_true]
      · intro set
        rw [Bool.and_eq_true] at set
        exact Or.inr ⟨set.1, by simp [isSilent, set.2]⟩
  | inside body depth =>
      refine ⟨expects, advance_still (step_inside plain) (depth_eq _) calm fun set => ?_⟩
      rw [calm (by simp)] at set
      cases set
  | closed => exact absurd rfl running

theorem pass_of_comment (ends : EndsComment ('#' :: text.takeWhile (· != '\n')))
    (pass : Pass place ('#' :: text) final rest)
    (short : rest.length ≤ (text.dropWhile (· != '\n')).length) :
    Pass place (text.dropWhile (· != '\n')) final rest := by
  rcases comment_units ends with ⟨body, tail, lexeme, inside, tail_eq⟩
  have ended := ends_comment (kept_refl (text.dropWhile (· != '\n')))
  have whole : text.takeWhile (· != '\n') ++ text.dropWhile (· != '\n') = text :=
    List.takeWhile_append_dropWhile
  rw [lexeme, List.append_assoc] at whole
  rw [← whole] at pass
  generalize text.dropWhile (· != '\n') = after at *
  have moves : rest.length ≤ (body ++ (tail ++ after)).length := by
    simp only [List.length_append]
    omega
  rcases tail_eq with rfl | rfl
  · exact pass.of_comment inside ended moves
  · have returns : ∀ character ∈ (['\r'] ++ after).head?, isLineEnd character := by
      rintro character ⟨⟩
      rfl
    exact (pass.of_comment inside returns moves).of_ordinary (List.all_eq_true.mp rfl) short

theorem exists_advance_single (single : Single first) (pass : Pass place (first :: text) final rest)
    (moves : rest.length ≤ text.length) (body : final = .outside ∨ accepts)
    (calm : place ≠ .outside → expects = false) :
    ∃ after expects', Pass after text final rest ∧
      Advance place kind accepts expects [first] after expects' := by
  rcases pass.of_next single.unquoted single.unmarked moves with ⟨after, moved, more⟩
  cases opens : isOpening first with
  | true =>
      have accepting : after = .inside true 0 → accepts := by
        rintro rfl
        exact body.resolve_left (more.ne_outside (Or.inr ⟨0, rfl⟩))
      refine ⟨after, false, more, advance_calm (step_opening opens moved calm accepting) ?_
        (not_isSilent (by decide) opens) fun within => within.next moved⟩
      simp [depthAfter, opens, Place.depth_opening opens moved]
  | false =>
      cases closes : isClosing first with
      | true =>
          refine ⟨after, false, more, advance_calm (step_closing closes moved calm) ?_
            (not_isSilent (by decide) closes) fun within => within.next moved⟩
          simp [depthAfter, opens, closes, Place.depth_closing closes moved]
      | false =>
          have plain := isPlain_iff.mpr ⟨opens, closes, single.unquoted, single.unmarked⟩
          have same := Place.next_eq_self plain moved
          subst same
          rcases exists_advance_mark plain single.unnamed (pass.running moves) calm with
            ⟨expects', advance⟩
          exact ⟨_, expects', more, advance⟩

/-- One lexeme of a definition leads to the next place. -/
theorem exists_advance (regular : Regular (first :: text.take (tailLength first text)))
    (pass : Pass place (first :: text) final rest)
    (short : rest.length ≤ (text.drop (tailLength first text)).length)
    (body : final = .outside ∨ accepts) (own : kind = .executable → accepts)
    (calm : place ≠ .outside → expects = false)
    (harmless : isNameStart first → place = .outside → expects = false →
      misleads kind (first :: text.take (tailLength first text)) = false) :
    ∃ after expects', Pass after (text.drop (tailLength first text)) final rest ∧
      Advance place kind accepts expects (first :: text.take (tailLength first text)) after expects' := by
  have moves : rest.length ≤ text.length := by
    rw [List.length_drop] at short
    omega
  rcases tailLength_cases first with ⟨rfl, size⟩ | ⟨rfl, size⟩ | ⟨starts, size⟩ | ⟨single, size⟩ <;>
    rw [size] at regular short harmless ⊢
  · rw [take_takeWhile] at regular ⊢
    rw [drop_takeWhile] at short ⊢
    refine ⟨place, expects, pass_of_comment regular.1 pass short, ?_⟩
    exact advance_still rfl (depthAfter_of_plain rfl rfl) calm fun _ => rfl
  · rcases pass.exists_string moves with ⟨middle, ⟨inner, depth, rfl⟩, reads, more⟩
    rw [drop_stringLength reads regular.2]
    refine ⟨_, expects, more, advance_still rfl (depthAfter_of_plain rfl rfl) calm fun set => ?_⟩
    rw [calm (by simp)] at set
    cases set
  · rw [take_takeWhile] at harmless ⊢
    rw [drop_takeWhile] at short ⊢
    exact exists_advance_name starts pass moves short own calm harmless
  · rw [List.take_zero, List.drop_zero]
    exact exists_advance_single single pass moves body calm

/-- None of some words leads the scan astray, apart from the name that is expected. -/
def Clear (kind : Kind) (expects : Bool) (words : List (List Char)) : Prop :=
  ∀ word ∈ if expects then words.tail else words, misleads kind word = false

theorem Clear.weaken {words : List (List Char)} (clear : Clear kind false words) (expects : Bool) :
    Clear kind expects words := by
  cases expects with
  | false => exact clear
  | true => exact fun word member => clear word (List.mem_of_mem_tail member)

theorem Clear.next {after : Place} {expects' : Bool} {lexeme : List Char} {front : List (List Char)}
    (clear : Clear kind expects (outerWords place.depth (lexeme :: front)))
    (advance : Advance place kind accepts expects lexeme after expects')
    (calm : place ≠ .outside → expects = false) : Clear kind expects' (outerWords after.depth front) := by
  rw [outerWords, ← advance.depth_eq] at clear
  split at clear
  · refine Clear.weaken ?_ expects'
    cases expects with
    | true => exact clear
    | false => exact fun word member => clear word (List.mem_cons_of_mem _ member)
  · next passed =>
      cases expects with
      | false => exact clear.weaken expects'
      | true =>
          have outside : place = .outside := Decidable.byContradiction fun other => by
            cases calm other
          subst outside
          have silent : isSilent lexeme := by simpa [Place.depth] using passed
          rw [advance.keeps silent]
          exact clear

theorem isSolid_of_silent {more : List Char} (silent : isSilent (first :: more))
    (pass : Pass .outside (first :: text) final rest) (moves : rest.length ≤ text.length) :
    isSolid first = false := by
  rw [isSilent, List.head?_cons, Option.any_some, Bool.or_eq_true, beq_iff_eq] at silent
  rcases silent with rfl | gap
  · rfl
  · simp only [Scan.isGap, Bool.or_eq_true, beq_iff_eq] at gap
    rcases gap with ((((rfl | rfl) | rfl) | rfl) | rfl) | rfl
    -- A form feed does not stand outside of brackets.
    case inr.inl.inl.inr =>
      rcases pass.of_next (by decide) (by decide) moves with ⟨_, moved, _⟩
      cases moved
    all_goals rfl

/-- Over a definition the scan keeps to one section, and follows its places. -/
theorem goes_of_pass {front : List (List Char)} {back : List Char}
    (split : lexemes text = front ++ lexemes back) (regular : ∀ lexeme ∈ front, Regular lexeme)
    (pass : Pass place text final rest) (short : rest.length ≤ back.length)
    (body : final = .outside ∨ accepts) (own : kind = .executable → accepts)
    (calm : place ≠ .outside → expects = false)
    (clear : place.InBody ∨ Clear kind expects (outerWords place.depth front)) :
    ∃ after expects', Goes (some kind) (Scan.within place kind accepts expects) front
        (Scan.within after kind accepts expects') ∧
      Pass after back final rest ∧ (after ≠ .outside → expects' = false) ∧
      (expects' → kind = .executable ∨
        expects ∧ grammar.afterBlanks text = grammar.afterBlanks back) := by
  induction front generalizing place expects text with
  | nil =>
      cases lexemes_inj split
      exact ⟨place, expects, .refl, pass, calm, fun set => Or.inr ⟨set, rfl⟩⟩
  | cons lexeme front ih =>
      rw [List.cons_append] at split
      rcases exists_of_lexemes_eq_cons split with ⟨first, text, rfl, rfl, others⟩
      have short' : rest.length ≤ (text.drop (tailLength first text)).length := by
        have flat := congrArg List.flatten others
        rw [flatten_lexemes, List.flatten_append, flatten_lexemes] at flat
        rw [flat, List.length_append]
        omega
      have moves : rest.length ≤ text.length := by
        rw [List.length_drop] at short'
        omega
      have here := regular _ List.mem_cons_self
      -- Only a name outside of brackets can lead astray, and the expected one does not.
      have harmless : isNameStart first → place = .outside → expects = false →
          misleads kind (first :: text.take (tailLength first text)) = false := by
        rintro starts rfl rfl
        rcases clear with (absurd | ⟨_, absurd⟩) | clear
        · cases absurd
        · cases absurd
        apply clear
        rw [outerWords, not_isSilent (by decide) starts]
        exact List.mem_cons_self
      rcases exists_advance here pass short' body own calm harmless with
        ⟨after, expects', more, advance⟩
      have clear' := clear.imp advance.body fun clear => clear.next advance calm
      rcases ih others (fun other member => regular other (List.mem_cons_of_mem _ member)) more
        advance.calm clear' with ⟨last, expecting, goes, passed, stays, silent⟩
      refine ⟨last, expecting, ?_, passed, stays, fun set => ?_⟩
      · refine .step ?_ ?_
        · rw [advance.scan_eq]
          rfl
        · rw [advance.scan_eq]
          exact goes
      · -- A name is still expected only if every lexeme so far was silent.
        rcases silent set with executable | ⟨expected, blanks⟩
        · exact Or.inl executable
        · rcases advance.expecting expected with executable | ⟨before, quiet⟩
          · exact Or.inl executable
          · have outside : place = .outside := Decidable.byContradiction fun other => by
              rw [calm other] at before
              cases before
            subst outside
            refine Or.inr ⟨before, (afterBlanks_lexeme here ?_).trans blanks⟩
            exact isSolid_of_silent quiet pass moves

end Passage

end PreviewLint.Outline
