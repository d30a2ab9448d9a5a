import PreviewLint.Proofs.GraphQL.Seam

/-!
# Reading across a seam

What an expression reads before a seam does not depend on what follows the seam, if the
expression is `tame`: it never looks at the text after the seam, except for parts that do not
match there whatever stands there. This is read off the expression and the border. As long as
brackets are open, the seam is out of reach, and nothing has to be known of the expression.
-/

namespace PreviewLint.GraphQL

open Peg

/-- How an expression behaves near a seam with a given border. -/
structure Profile where
  /-- It reads the same before the seam, whatever follows the seam. -/
  tame : Bool
  /-- It may reach the seam. -/
  ends : Bool
  /-- It reads nothing after the seam. -/
  stops : Bool
  /-- Where it reads nothing after the seam, it matches nonetheless. -/
  idle : Bool
  deriving DecidableEq

/-- The answer of an expression that reads nothing. -/
def Profile.answer (profile : Profile) (text : List Char) : Option (List Char) :=
  bif profile.idle then some text else none

/-- Whether no text that may follow the seam begins with a fixed text. -/
def Border.refuses (border : Border) (fixed : List Char) : Bool :=
  !fixed.isEmpty &&
    border.follows.all fun word => !fixed.isPrefixOf word.toList && !word.toList.isPrefixOf fixed

/--
The profile of an expression. `known` gives that of the rules, and `spaced` tells whether
blanks are skipped.
-/
def profile (border : Border) (spaced : Bool) (known : Rule → Profile) : Peg Rule → Profile
  | .empty => ⟨true, false, true, true⟩
  | .char accepts => ⟨true, border.last.any accepts, false, false⟩
  | .word fixed =>
    ⟨border.keeps fixed.toList, fixed.toList.getLast?.any border.last.contains,
      border.refuses fixed.toList, false⟩
  | .rule called => known called
  | .seq first second =>
    let one := profile border spaced known first
    let other := profile border spaced known second
    let opened := ((effect first).map Prod.snd).getD 0
    let closed := ((effect second).map Prod.fst).getD 0
    { tame := (decide (opened < closed) || one.tame) && (decide (closed < opened) || other.tame) &&
        (!one.ends || decide (0 < opened + closed) || spaced && other.stops)
      ends := other.ends || one.ends && other.idle
      stops := one.stops && (!one.idle || other.stops)
      idle := one.idle && other.idle }
  | .choice first second =>
    let one := profile border spaced known first
    let other := profile border spaced known second
    ⟨one.tame && other.tame, one.ends || other.ends, one.stops && other.stops, one.idle || other.idle⟩
  | .maybe body => { profile border spaced known body with idle := true }
  | .many body =>
    let inner := profile border spaced known body
    ⟨inner.tame && (!inner.ends || spaced && inner.stops && !inner.idle), inner.ends,
      inner.stops && !inner.idle, true⟩
  | .absent body =>
    let inner := profile border spaced known body
    ⟨inner.tame, false, inner.stops, !inner.idle⟩

/-- The profile of a rule, looked for in `depth` rules at most. -/
def ruleProfile (border : Border) : Nat → Bool → Rule → Profile
  | 0, _, _ => ⟨false, true, false, false⟩
  | depth + 1, spaced, called =>
    if called = .string then ⟨true, false, false, false⟩
    else if called = .name then
      ⟨!border.glued || !border.last.any isNamePart, border.last.any isNamePart, false, false⟩
    else
      let spaced := spaced && decide (grammar.spacing called = .spaced)
      profile border spaced (ruleProfile border depth spaced) (grammar.body called)

/-- The profile of an expression, looked for in `depth` rules at most. -/
abbrev profileOf (border : Border) (depth : Nat) (spaced : Bool) (expression : Peg Rule) : Profile :=
  profile border spaced (ruleProfile border depth spaced) expression

/-! ## After the seam -/

/-- A text that may stand after a seam, without the blanks before it. -/
structure Border.Beyond (border : Border) (text : List Char) : Prop where
  solid : grammar.afterBlanks text = text
  begins : text = [] ∨ ∃ word ∈ border.follows, word.toList <+: text

theorem Border.Fits.beyond {border : Border} {final : Char} {text : List Char}
    (fits : border.Fits final text) : border.Beyond (grammar.afterBlanks text) :=
  ⟨afterBlanks_afterBlanks text, fits.begins⟩

section Beyond

variable {border : Border} {text : List Char}

theorem Border.Beyond.not_begins (beyond : border.Beyond text) {fixed : List Char}
    (refuses : border.refuses fixed) : ¬fixed <+: text := by
  intro begins
  simp only [Border.refuses, Bool.and_eq_true, Bool.not_eq_true', List.all_eq_true] at refuses
  rcases beyond.begins with rfl | ⟨word, member, wordBegins⟩
  · cases List.prefix_nil.mp begins
    cases refuses.1
  · have apart := refuses.2 word member
    rcases List.prefix_or_prefix_of_prefix begins wordBegins with shorter | longer
    · rw [List.isPrefixOf_iff_prefix.mpr shorter] at apart
      cases apart.1
    · rw [List.isPrefixOf_iff_prefix.mpr longer] at apart
      cases apart.2

theorem reads_of_stops_known (beyond : border.Beyond text) {spaced : Bool} {known : Rule → Profile}
    (rules : ∀ called spacing, (known called).stops → (rule called).Reads grammar spacing text
      ((known called).answer text))
    {spacing : Spacing} {expression : Peg Rule}
    (stops : (profile border spaced known expression).stops) :
    expression.Reads grammar spacing text
      ((profile border spaced known expression).answer text) := by
  induction expression with
  | empty => exact .empty
  | char accepts => cases stops
  | word fixed => exact .word_refused (beyond.not_begins stops)
  | rule called => exact rules called spacing stops
  | seq first second one other =>
      simp only [profile, Bool.and_eq_true, Bool.or_eq_true, Bool.not_eq_true'] at stops
      have before := one stops.1
      simp only [Profile.answer, profile] at before other ⊢
      -- An idle first part leaves the text as it is, also the blanks, of which there are none.
      rcases idle : (profile border spaced known first).idle with _ | _
      · rw [idle] at before
        exact .seq_refused before
      · rw [idle] at before
        have after := other (stops.2.resolve_left (by rw [idle]; exact Bool.noConfusion))
        refine .seq before ?_
        rw [gap_of_solid beyond.solid]
        exact after
  | choice first second one other =>
      simp only [profile, Bool.and_eq_true] at stops
      have chosen := one stops.1
      simp only [Profile.answer, profile] at chosen other ⊢
      rcases idle : (profile border spaced known first).idle with _ | _
      · rw [idle] at chosen
        exact .choice_second chosen (other stops.2)
      · rw [idle] at chosen
        exact .choice_first chosen
  | maybe body ih =>
      have inner := ih stops
      rw [Profile.answer] at inner
      rcases idle : (profile border spaced known body).idle with _ | _
      · rw [idle] at inner
        exact .maybe_none inner
      · rw [idle] at inner
        exact .maybe inner
  | many body ih =>
      simp only [profile, Bool.and_eq_true, Bool.not_eq_true'] at stops
      have inner := ih stops.1
      rw [Profile.answer, stops.2] at inner
      exact .many_none inner
  | absent body ih =>
      have inner := ih stops
      simp only [Profile.answer, profile] at inner ⊢
      rcases idle : (profile border spaced known body).idle with _ | _
      · rw [idle] at inner
        exact .absent inner
      · rw [idle] at inner
        exact .absent_refused inner

/-- What stops after the seam reads nothing there. -/
theorem reads_of_stops (beyond : border.Beyond text) {depth : Nat} {spaced : Bool}
    {spacing : Spacing} {expression : Peg Rule}
    (stops : (profileOf border depth spaced expression).stops) :
    expression.Reads grammar spacing text
      ((profileOf border depth spaced expression).answer text) := by
  apply reads_of_stops_known beyond _ stops
  clear stops expression spacing
  induction depth generalizing spaced with
  | zero =>
      intro called spacing stops
      cases stops
  | succ depth ih =>
      intro called spacing stops
      simp only [ruleProfile] at stops ⊢
      split at stops
      · cases stops
      · split at stops
        · cases stops
        · next unquoted unnamed =>
            rw [if_neg unquoted, if_neg unnamed]
            exact .rule (reads_of_stops_known beyond ih stops)

end Beyond

/-! ## Before the seam -/

namespace Seam

variable {border : Border} {seam : Seam border} {depth : Nat} {reached : Bool}
  {text other : List Char}

/-- The answers of an expression to two texts with a seam ahead of them. -/
inductive Carried (seam : Seam border) (depth : Nat) (reached : Bool) :
    Option (List Char) → Option (List Char) → Prop
  | none : Carried seam depth reached none none
  | some {rest rest'} (spot : seam.Spot depth reached rest rest') :
      Carried seam depth reached (some rest) (some rest')

/-- The seam is still ahead, or both texts go on after the seam. -/
theorem Spot.ahead_or_beyond (spot : seam.Spot depth reached text other) :
    seam.Spot depth false text other ∨ reached ∧ depth = 0 ∧
      grammar.afterBlanks text = grammar.afterBlanks seam.first ∧
      grammar.afterBlanks other = grammar.afterBlanks seam.second := by
  cases spot with
  | ahead final common => exact Or.inl (.ahead final common)
  | here reached closed => exact Or.inr ⟨reached, closed, rfl, rfl⟩
  | past reached closed =>
      exact Or.inr ⟨reached, closed, afterBlanks_afterBlanks _, afterBlanks_afterBlanks _⟩

theorem Spot.mono {more : Bool} (spot : seam.Spot depth reached text other) (allows : reached → more) :
    seam.Spot depth more text other := by
  cases spot with
  | ahead final common => exact .ahead final common
  | here reached closed => exact .here (allows reached) closed
  | past reached closed => exact .past (allows reached) closed

theorem Carried.mono {more : Bool} {answer answer' : Option (List Char)}
    (carried : seam.Carried depth reached answer answer') (allows : 0 < depth ∨ (reached → more)) :
    seam.Carried depth more answer answer' := by
  cases carried with
  | none => exact .none
  | some spot =>
      rcases allows with opened | allows
      · exact .some (spot.reached_of_pos opened more)
      · exact .some (spot.mono allows)

/-- What stops after the seam gives the same answer after both texts. -/
theorem across_beyond {expression : Peg Rule} {answer : Option (List Char)} {opened : Nat}
    {spaced : Bool}
    (reads : expression.Reads grammar .spaced (grammar.gap .spaced text) answer)
    (same : grammar.afterBlanks (grammar.gap .spaced text) = grammar.afterBlanks seam.first)
    (same' : grammar.afterBlanks (grammar.gap .spaced other) = grammar.afterBlanks seam.second)
    (stops : (profileOf border depth spaced expression).stops)
    (effective : effect expression = some (0, opened)) :
    ∃ answer', expression.Reads grammar .spaced (grammar.gap .spaced other) answer' ∧
      seam.Carried opened (profileOf border depth spaced expression).idle answer answer' ∧
      (answer.isSome → (profileOf border depth spaced expression).idle) := by
  change grammar.afterBlanks (grammar.afterBlanks text) = _ at same
  change grammar.afterBlanks (grammar.afterBlanks other) = _ at same'
  rw [afterBlanks_afterBlanks] at same same'
  change expression.Reads grammar .spaced (grammar.afterBlanks text) answer at reads
  change ∃ answer', expression.Reads grammar .spaced (grammar.afterBlanks other) answer' ∧ _
  rw [same] at reads
  rw [same']
  refine ⟨_, reads_of_stops seam.fits'.beyond stops, ?_⟩
  have answered := reads.unique (reads_of_stops seam.fits.beyond stops)
  subst answered
  rw [Profile.answer] at reads
  rw [Profile.answer, Profile.answer]
  cases idle : (profileOf border depth spaced expression).idle with
  | false => exact ⟨.none, fun found => found⟩
  | true =>
      rw [idle] at reads
      have walk := walk_of_reads reads effective 0
      have closed := walk.depth_eq_of_length_le (Nat.le_refl _)
      exact ⟨.some (.past rfl (by omega)), fun _ => rfl⟩

section Sequence

variable {first second : Peg Rule} {around closed opened closes opens : Nat} {spaced : Bool}

/-- What has to be known of a sequence, in terms of its parts. -/
theorem safe_seq (safe : 0 < around ∨ (profileOf border depth spaced (.seq first second)).tame)
    (firstEffect : effect first = some (closed, opened))
    (secondEffect : effect second = some (closes, opens)) :
    (0 < around + (closes - opened) ∨ (profileOf border depth spaced first).tame) ∧
      (0 < around + (opened - closes) ∨ (profileOf border depth spaced second).tame) ∧
      ((profileOf border depth spaced first).ends → around + opened + closes = 0 →
        spaced ∧ (profileOf border depth spaced second).stops) := by
  rcases safe with inside | tame
  · exact ⟨Or.inl (by omega), Or.inl (by omega), fun _ outside => by omega⟩
  · simp only [profileOf, profile, firstEffect, secondEffect, Option.map_some, Option.getD_some,
      Bool.and_eq_true, Bool.or_eq_true, decide_eq_true_eq, Bool.not_eq_true'] at tame
    obtain ⟨⟨one, other⟩, junction⟩ := tame
    refine ⟨?_, ?_, fun ends outside => ?_⟩
    · exact one.imp_left fun lower => by omega
    · exact other.imp_left fun lower => by omega
    · rcases junction with (unreached | deep) | stops
      · rw [ends] at unreached
        cases unreached
      · omega
      · exact stops

theorem safe_many {body : Peg Rule}
    (safe : 0 < around ∨ (profileOf border depth spaced (.many body)).tame) :
    (0 < around ∨ (profileOf border depth spaced body).tame) ∧
      ((profileOf border depth spaced body).ends → around + 0 = 0 →
        spaced ∧ (profileOf border depth spaced body).stops ∧
          (profileOf border depth spaced body).idle = false) := by
  rcases safe with inside | tame
  · exact ⟨Or.inl inside, fun _ outside => by omega⟩
  · simp only [profileOf, profile, Bool.and_eq_true, Bool.or_eq_true, Bool.not_eq_true'] at tame
    refine ⟨Or.inr tame.1, fun ends _ => ?_⟩
    rcases tame.2 with unreached | ⟨⟨skipping, stops⟩, active⟩
    · rw [ends] at unreached
      cases unreached
    · exact ⟨skipping, stops, active⟩

end Sequence

/--
An expression that gives an answer before the seam gives the same answer to the other text,
whatever brackets stand around it and however far its profile was looked for.
-/
def Crosses (seam : Seam border) (spacing : Spacing) (expression : Peg Rule) (text : List Char)
    (answer : Option (List Char)) : Prop :=
  ∀ ⦃depth around closed opened : Nat⦄ ⦃spaced : Bool⦄ ⦃other : List Char⦄,
    effect expression = some (closed, opened) → (spaced → spacing = .spaced) →
    0 < around ∨ (profileOf border depth spaced expression).tame →
    seam.Spot (around + closed) false text other →
    ∃ answer', expression.Reads grammar spacing other answer' ∧
      seam.Carried (around + opened) (profileOf border depth spaced expression).ends answer answer'

namespace Crosses

variable {spacing : Spacing} {first second body : Peg Rule} {middle next rest : List Char}
  {answer : Option (List Char)}

theorem string (reads : (rule .string).Reads grammar spacing text answer) :
    seam.Crosses spacing (.rule .string) text answer := by
  intro depth around closed opened spaced other effective _ _ spot
  rcases effect_rule_eq_some effective with ⟨_, rfl, rfl⟩
  cases answer with
  | none => exact ⟨_, spot.string_refused reads, .none⟩
  | some rest =>
      rcases spot.string reads with ⟨rest', reads', after⟩
      exact ⟨_, reads', .some (after.weaken _)⟩

theorem name (reads : (rule .name).Reads grammar spacing text answer) :
    seam.Crosses spacing (.rule .name) text answer := by
  intro depth around closed opened spaced other effective _ safe spot
  rcases effect_rule_eq_some effective with ⟨_, rfl, rfl⟩
  cases answer with
  | none => exact ⟨_, spot.name_refused reads, .none⟩
  | some rest =>
      cases depth with
      | zero =>
          have inside := safe.resolve_right (by exact Bool.noConfusion)
          rcases spot.name (Or.inl inside) reads with ⟨rest', reads', after⟩
          exact ⟨_, reads', .some (after.reached_of_pos inside _)⟩
      | succ depth =>
          rcases spot.name safe reads with ⟨rest', reads', after⟩
          exact ⟨_, reads', .some after⟩

/-- A rule is read as its body is. Strings and names are not looked into. -/
theorem rule {called : Rule} (quoted : called ≠ .string) (named : called ≠ .name)
    (inner : seam.Crosses (spacing.inside (grammar.spacing called)) (grammar.body called) text answer) :
    seam.Crosses spacing (.rule called) text answer := by
  intro depth around closed opened spaced other effective skips safe spot
  rcases effect_rule_eq_some effective with ⟨known, rfl, rfl⟩
  have balanced := effect_body known quoted
  cases depth with
  | zero =>
      -- Nothing is known of the rule, so brackets are open around it.
      have inside := safe.resolve_right (by exact Bool.noConfusion)
      have skips' : false = true → spacing.inside (grammar.spacing called) = .spaced :=
        Bool.noConfusion
      have safe' : 0 < around ∨ (profileOf border 0 false (grammar.body called)).tame :=
        Or.inl inside
      rcases inner balanced skips' safe' spot with ⟨answer', reads', carried⟩
      exact ⟨answer', .rule reads', carried.mono (Or.inl (by omega))⟩
  | succ depth =>
      simp only [profileOf, profile, ruleProfile, if_neg quoted, if_neg named] at safe ⊢
      have skips' : (spaced && decide (grammar.spacing called = .spaced)) = true →
          spacing.inside (grammar.spacing called) = .spaced := by
        intro both
        simp only [Bool.and_eq_true, decide_eq_true_eq] at both
        rw [both.2]
        exact skips both.1
      rcases inner balanced skips' safe spot with ⟨answer', reads', carried⟩
      exact ⟨answer', .rule reads', carried⟩

/-- Either the second part still begins before the seam, or it stops after it. -/
theorem seq (reads : second.Reads grammar spacing (grammar.gap spacing middle) answer)
    (before : seam.Crosses spacing first text (some middle))
    (after : seam.Crosses spacing second (grammar.gap spacing middle) answer) :
    seam.Crosses spacing (.seq first second) text answer := by
  intro depth around closed opened spaced other effective skips safe spot
  rcases effect_seq_eq_some effective around with
    ⟨_, _, closes, opens, firstEffect, secondEffect, start, level, stop⟩
  rcases safe_seq safe firstEffect secondEffect with ⟨firstSafe, secondSafe, junction⟩
  rw [start] at spot
  rcases before firstEffect skips firstSafe spot with ⟨_, reads', carried⟩
  cases carried with
  | some middleSpot =>
      rcases (middleSpot.gap spacing).ahead_or_beyond with ahead | ⟨ends, outside, same, same'⟩
      · rw [level] at ahead
        rcases after secondEffect skips secondSafe ahead with ⟨answer', reads'', carried⟩
        rw [stop]
        refine ⟨answer', .seq reads' reads'', carried.mono (Or.inr fun ends => ?_)⟩
        simp [profileOf, profile, ends]
      · rcases junction ends (by omega) with ⟨skipping, stops⟩
        cases skips skipping
        have none : closes = 0 := by omega
        subst none
        rcases across_beyond reads same same' stops secondEffect with ⟨answer', reads'', carried, _⟩
        have outer : around + opened = opens := by omega
        rw [outer]
        refine ⟨answer', .seq reads' reads'', carried.mono (Or.inr fun idle => ?_)⟩
        simp [profileOf, profile, ends, idle]

theorem seq_refused (before : seam.Crosses spacing first text none) :
    seam.Crosses spacing (.seq first second) text none := by
  intro depth around closed opened spaced other effective skips safe spot
  rcases effect_seq_eq_some effective around with
    ⟨_, _, _, _, firstEffect, secondEffect, start, _, _⟩
  rw [start] at spot
  rcases before firstEffect skips (safe_seq safe firstEffect secondEffect).1 spot with
    ⟨_, reads', carried⟩
  cases carried with
  | none => exact ⟨_, .seq_refused reads', .none⟩

theorem choice_first (chosen : seam.Crosses spacing first text (some rest)) :
    seam.Crosses spacing (.choice first second) text (some rest) := by
  intro depth around closed opened spaced other effective skips safe spot
  rcases effect_choice_eq_some effective with ⟨firstEffect, _⟩
  have firstSafe := safe.imp_right fun tame => (Bool.and_eq_true_iff.mp tame).1
  rcases chosen firstEffect skips firstSafe spot with ⟨_, reads', carried⟩
  cases carried with
  | some after =>
      refine ⟨_, .choice_first reads', .some (after.mono fun ends => ?_)⟩
      simp [profileOf, profile, ends]

theorem choice_second (refused : seam.Crosses spacing first text none)
    (chosen : seam.Crosses spacing second text answer) :
    seam.Crosses spacing (.choice first second) text answer := by
  intro depth around closed opened spaced other effective skips safe spot
  rcases effect_choice_eq_some effective with ⟨firstEffect, secondEffect⟩
  have firstSafe := safe.imp_right fun tame => (Bool.and_eq_true_iff.mp tame).1
  have secondSafe := safe.imp_right fun tame => (Bool.and_eq_true_iff.mp tame).2
  rcases refused firstEffect skips firstSafe spot with ⟨_, reads', failed⟩
  rcases chosen secondEffect skips secondSafe spot with ⟨answer', reads'', carried⟩
  cases failed with
  | none =>
      refine ⟨answer', .choice_second reads' reads'', carried.mono (Or.inr fun ends => ?_)⟩
      simp [profileOf, profile, ends]

theorem many_none (missing : seam.Crosses spacing body text none) :
    seam.Crosses spacing (.many body) text (some text) := by
  intro depth around closed opened spaced other effective skips safe spot
  rcases effect_body_eq_some effective with ⟨balanced, rfl, rfl⟩
  rcases missing balanced skips (safe_many safe).1 spot with ⟨_, reads', carried⟩
  cases carried with
  | none => exact ⟨_, .many_none reads', .some (spot.weaken _)⟩

/-- The round that fails begins before the seam, or fails because it stops after it. -/
theorem many_last (reads : body.Reads grammar spacing (grammar.gap spacing middle) none)
    (present : seam.Crosses spacing body text (some middle))
    (missing : seam.Crosses spacing body (grammar.gap spacing middle) none) :
    seam.Crosses spacing (.many body) text (some middle) := by
  intro depth around closed opened spaced other effective skips safe spot
  rcases effect_body_eq_some effective with ⟨balanced, rfl, rfl⟩
  rcases safe_many safe with ⟨bodySafe, junction⟩
  rcases present balanced skips bodySafe spot with ⟨_, reads', carried⟩
  cases carried with
  | some middleSpot =>
      refine ⟨_, .many_last reads' ?_, .some middleSpot⟩
      rcases (middleSpot.gap spacing).ahead_or_beyond with ahead | ⟨ends, outside, same, same'⟩
      · rcases missing balanced skips bodySafe ahead with ⟨_, reads'', carried⟩
        cases carried with
        | none => exact reads''
      · rcases junction ends outside with ⟨skipping, stops, _⟩
        cases skips skipping
        rcases across_beyond reads same same' stops balanced with ⟨_, reads'', carried, _⟩
        cases carried with
        | none => exact reads''

/-- No round begins after the seam, since it would read nothing and match. -/
theorem many_more (reads : body.Reads grammar spacing (grammar.gap spacing middle) (some next))
    (present : seam.Crosses spacing body text (some middle))
    (again : seam.Crosses spacing body (grammar.gap spacing middle) (some next))
    (more : seam.Crosses spacing (.many body) (grammar.gap spacing middle) (some rest)) :
    seam.Crosses spacing (.many body) text (some rest) := by
  intro depth around closed opened spaced other effective skips safe spot
  rcases effect_body_eq_some effective with ⟨balanced, rfl, rfl⟩
  rcases safe_many safe with ⟨bodySafe, junction⟩
  rcases present balanced skips bodySafe spot with ⟨_, reads', carried⟩
  cases carried with
  | some middleSpot =>
      rcases (middleSpot.gap spacing).ahead_or_beyond with ahead | ⟨ends, outside, same, same'⟩
      · rcases again balanced skips bodySafe ahead with ⟨_, once, carried⟩
        rcases more effective skips safe ahead with ⟨_, rounds, others⟩
        cases carried with
        | some _ =>
            cases others with
            | some after => exact ⟨_, .many_more reads' once rounds, .some after⟩
      · rcases junction ends outside with ⟨skipping, stops, active⟩
        cases skips skipping
        rcases across_beyond reads same same' stops balanced with ⟨_, _, _, idle⟩
        rw [idle rfl] at active
        cases active

end Crosses

/-- What an expression reads before the seam does not depend on what follows the seam. -/
theorem across {spacing : Spacing} {expression : Peg Rule} {answer : Option (List Char)}
    (reads : expression.Reads grammar spacing text answer) :
    seam.Crosses spacing expression text answer := by
  induction reads with
  | empty =>
      intro _ _ _ _ _ _ effective _ _ spot
      cases effective
      exact ⟨_, .empty, .some spot⟩
  | char accepted =>
      intro _ _ _ _ _ _ effective _ _ spot
      have plain := isPlain_of_effect effective accepted
      rcases effect_char_eq_some effective with ⟨rfl, rfl⟩
      rcases spot.char plain accepted with ⟨rest', rfl, after⟩
      exact ⟨_, .char accepted, .some after⟩
  | char_refused refused =>
      intro _ _ _ _ _ _ _ _ _ spot
      rw [← spot.head?_eq] at refused
      exact ⟨_, .char_refused refused, .none⟩
  | word =>
      intro _ _ _ _ _ _ effective _ safe spot
      rcases spot.word effective safe with ⟨rest', rfl, after⟩
      exact ⟨_, .word, .some after⟩
  | word_refused refused =>
      intro _ _ _ _ _ _ effective _ safe spot
      exact ⟨_, .word_refused (spot.word_refused effective safe refused), .none⟩
  | @rule spacing called text answer body inner =>
      -- The body of a string may hold any bracket, and a name depends on what follows it.
      by_cases quoted : called = .string
      · subst quoted
        exact .string (.rule body)
      by_cases named : called = .name
      · subst named
        exact .name (.rule body)
      exact .rule quoted named inner
  | seq _ reads before after => exact .seq reads before after
  | seq_refused _ before => exact .seq_refused before
  | choice_first _ chosen => exact .choice_first chosen
  | choice_second _ _ refused chosen => exact .choice_second refused chosen
  | maybe _ inner =>
      intro _ _ _ _ _ _ effective skips safe spot
      rcases effect_body_eq_some effective with ⟨balanced, rfl, rfl⟩
      rcases inner balanced skips safe spot with ⟨_, reads', carried⟩
      cases carried with
      | some after => exact ⟨_, .maybe reads', .some after⟩
  | maybe_none _ inner =>
      intro _ _ _ _ _ _ effective skips safe spot
      rcases effect_body_eq_some effective with ⟨balanced, rfl, rfl⟩
      rcases inner balanced skips safe spot with ⟨_, reads', carried⟩
      cases carried with
      | none => exact ⟨_, .maybe_none reads', .some (spot.weaken _)⟩
  | many_none _ missing => exact .many_none missing
  | many_last _ reads present missing => exact .many_last reads present missing
  | many_more _ reads _ present again more => exact .many_more reads present again more
  | absent _ inner =>
      intro _ _ _ _ _ _ effective skips safe spot
      rcases effect_body_eq_some effective with ⟨balanced, rfl, rfl⟩
      rcases inner balanced skips safe spot with ⟨_, reads', carried⟩
      cases carried with
      | none => exact ⟨_, .absent reads', .some spot⟩
  | absent_refused _ inner =>
      intro _ _ _ _ _ _ effective skips safe spot
      rcases effect_body_eq_some effective with ⟨balanced, rfl, rfl⟩
      rcases inner balanced skips safe spot with ⟨_, reads', carried⟩
      cases carried with
      | some after => exact ⟨_, .absent_refused reads', .none⟩

end Seam

end PreviewLint.GraphQL
