import Mathlib.Data.List.TakeDrop
import Mathlib.Data.List.TakeWhile
import PreviewLint.Json.Reader
import PreviewLint.Proofs.Fields
import PreviewLint.Proofs.Json.Spelling

/-!
# Reading JSON finds what is written

A reader *realizes* a relation of texts and values if what it takes from the beginning of a text is
a text of what it returns, and if it finds every value that is written there. A number goes on as
long as it can, so the second half needs that what follows does not go on with it: in a JSON text
a delimiter follows every value, or nothing.

The nesting that a reader admits is the nesting of the relation, level by level, and so
`Json.parse?` finds exactly the values of `Json.Spells`.
-/

namespace PreviewLint.Json.Reader

/-! ## What may follow a value -/

/-- What stands between values, and never at their beginning. -/
def isDelimiter (character : Char) : Bool :=
  isBlank character || [',', ':', ']', '\x7d'].contains character

/-- A number that ends here does not go on in what follows. -/
def EndsNumber (rest : List Char) : Prop :=
  rest.head?.any (fun character => character.isDigit || ['.', 'e', 'E'].contains character) = false

theorem endsNumber_nil : EndsNumber [] := rfl

theorem EndsNumber.not_isDigit {rest : List Char} (ends : EndsNumber rest) :
    rest.head?.any Char.isDigit = false := by
  cases rest with
  | nil => rfl
  | cons first rest => exact (Bool.or_eq_false_iff.mp ends).1

theorem endsNumber_cons {first : Char} {rest : List Char} (delimiter : isDelimiter first) :
    EndsNumber (first :: rest) := by
  simp only [isDelimiter, isBlank, List.contains_eq_mem, List.mem_cons, List.not_mem_nil, or_false,
    Bool.or_eq_true, beq_iff_eq, decide_eq_true_eq] at delimiter
  rcases delimiter with ((((rfl | rfl) | rfl) | rfl) | rfl | rfl | rfl | rfl) <;> rfl

/-! ## Blanks -/

theorem isBlank_iff {character : Char} :
    isBlank character ↔ character ∈ [' ', '\t', '\n', '\r'] := by
  simp [isBlank, or_assoc]

theorem eq_append_afterBlanks (text : List Char) :
    ∃ before, Blank before ∧ text = before ++ afterBlanks text := by
  refine ⟨text.takeWhile isBlank, fun character found => ?_, List.takeWhile_append_dropWhile.symm⟩
  exact isBlank_iff.mp (List.mem_takeWhile_imp found)

theorem afterBlanks_append {before : List Char} (blank : Blank before) (text : List Char) :
    afterBlanks (before ++ text) = afterBlanks text := by
  induction before with
  | nil => rfl
  | cons first before ih =>
    have here : isBlank first := isBlank_iff.mpr (blank (List.mem_cons_self ..))
    rw [List.cons_append, afterBlanks, List.dropWhile_cons_of_pos here]
    exact ih fun character found => blank (List.mem_cons_of_mem _ found)

theorem afterBlanks_cons {first : Char} (solid : isBlank first = false) (text : List Char) :
    afterBlanks (first :: text) = first :: text :=
  List.dropWhile_cons_of_neg (by simp [solid])

theorem afterBlanks_eq_nil_iff {text : List Char} : afterBlanks text = [] ↔ Blank text := by
  constructor
  · intro empty
    obtain ⟨before, blank, same⟩ := eq_append_afterBlanks text
    rwa [same, empty, List.append_nil]
  · intro blank
    have := afterBlanks_append blank []
    rwa [List.append_nil] at this

theorem isBlank_eq_false {character : Char} (solid : isDelimiter character = false) :
    isBlank character = false :=
  (Bool.or_eq_false_iff.mp solid).1

theorem endsNumber_append {after rest : List Char} (blank : Blank after)
    (ends : EndsNumber rest) : EndsNumber (after ++ rest) := by
  cases after with
  | nil => exact ends
  | cons first after =>
    exact endsNumber_cons (by simp [isDelimiter, isBlank_iff.mpr (blank (List.mem_cons_self ..))])

/-! ## Readers and what they read -/

/-- A reader takes from the beginning of a text what is written there. -/
structure Realizes {α : Type} (reader : Reader α) (spells : List Char → α → Prop) : Prop where
  sound : ∀ {text value rest}, reader text = some (value, rest) →
    ∃ taken, spells taken value ∧ text = taken ++ rest
  complete : ∀ {taken value rest}, spells taken value → EndsNumber rest →
    reader (taken ++ rest) = some (value, rest)
  /-- There is something written, and it does not begin with a delimiter. -/
  solid : ∀ {taken value}, spells taken value →
    ∃ first others, taken = first :: others ∧ isDelimiter first = false

/-- The blanks before what is written end where it begins. -/
theorem Realizes.afterBlanks_append {α : Type} {reader : Reader α}
    {spells : List Char → α → Prop} (realizes : Realizes reader spells)
    {before taken : List Char} {value : α} (blank : Blank before) (written : spells taken value)
    (rest : List Char) : afterBlanks (before ++ (taken ++ rest)) = taken ++ rest := by
  obtain ⟨first, others, rfl, solid⟩ := realizes.solid written
  rw [Reader.afterBlanks_append blank, List.cons_append, afterBlanks_cons (isBlank_eq_false solid)]

/-! ## Numbers -/

theorem digits_sound {text found rest : List Char} (read : digits text = some (found, rest)) :
    Numeral.Digits found ∧ text = found ++ rest := by
  rw [digits, List.span_eq_takeWhile_dropWhile] at read
  split at read
  · cases read
  · rename_i taken dropped nonempty parts
    cases read
    cases parts
    exact ⟨⟨nonempty, List.all_takeWhile⟩,
      List.takeWhile_append_dropWhile.symm⟩

theorem digits_complete {found rest : List Char} (digits : Numeral.Digits found)
    (ends : rest.head?.any Char.isDigit = false) :
    Reader.digits (found ++ rest) = some (found, rest) := by
  have stops : rest.takeWhile Char.isDigit = [] ∧ rest.dropWhile Char.isDigit = rest := by
    cases rest with
    | nil => exact ⟨rfl, rfl⟩
    | cons first rest => simp_all
  have all : ∀ character ∈ found, character.isDigit := List.all_eq_true.mp digits.2
  rw [Reader.digits, List.span_eq_takeWhile_dropWhile, List.takeWhile_append_of_pos all,
    List.dropWhile_append_of_pos all, stops.1, stops.2, List.append_nil]
  split
  · rename_i nothing
    exact absurd (Prod.ext_iff.mp nothing).1 digits.1
  · rename_i same
    rw [← same]

theorem whole_sound {text found rest : List Char} (read : whole text = some (found, rest)) :
    Numeral.Digits found ∧ (found.head? = some '0' → found = ['0']) ∧ text = found ++ rest := by
  unfold whole at read
  split at read
  · cases read
    exact ⟨⟨List.cons_ne_nil _ _, rfl⟩, fun _ => rfl, rfl⟩
  · rename_i other
    obtain ⟨digits, rfl⟩ := digits_sound read
    refine ⟨digits, fun zero => ?_, rfl⟩
    obtain ⟨others, rfl⟩ := List.head?_eq_some_iff.mp zero
    exact absurd rfl (other (others ++ rest))

theorem whole_complete {found rest : List Char} (digits : Numeral.Digits found)
    (trimmed : found.head? = some '0' → found = ['0'])
    (ends : rest.head?.any Char.isDigit = false) :
    whole (found ++ rest) = some (found, rest) := by
  unfold whole
  split
  · rename_i others same
    cases found with
    | nil => exact absurd rfl digits.1
    | cons first found =>
      cases same
      cases trimmed rfl
      rfl
  · exact digits_complete digits ends

theorem fraction_sound {text found rest : List Char} (read : fraction text = some (found, rest)) :
    found.all Char.isDigit ∧ text = Numeral.marked '.' found ++ rest := by
  unfold fraction at read
  split at read
  · obtain ⟨digits, rfl⟩ := digits_sound read
    exact ⟨digits.2, by simp [Numeral.marked, digits.1]⟩
  · cases read
    exact ⟨rfl, rfl⟩

theorem fraction_complete {found rest : List Char} (digits : found.all Char.isDigit)
    (ends : rest.head?.any Char.isDigit = false) (pointless : rest.head? ≠ some '.') :
    fraction (Numeral.marked '.' found ++ rest) = some (found, rest) := by
  by_cases empty : found = []
  · subst empty
    change fraction rest = some ([], rest)
    unfold fraction
    split
    · exact absurd rfl pointless
    · rfl
  · rw [Numeral.marked, if_neg empty]
    exact digits_complete ⟨empty, digits⟩ ends

theorem signedDigits_sound {text found rest : List Char}
    (read : signedDigits text = some (found, rest)) :
    Numeral.Signed found ∧ text = found ++ rest := by
  unfold signedDigits at read
  split at read
  · obtain ⟨⟨digits, rest⟩, found, same⟩ := Option.map_eq_some_iff.mp read
    obtain ⟨digits, rfl⟩ := digits_sound found
    cases same
    exact ⟨⟨['+'], _, by simp, digits, rfl⟩, rfl⟩
  · obtain ⟨⟨digits, rest⟩, found, same⟩ := Option.map_eq_some_iff.mp read
    obtain ⟨digits, rfl⟩ := digits_sound found
    cases same
    exact ⟨⟨['-'], _, by simp, digits, rfl⟩, rfl⟩
  · obtain ⟨digits, rfl⟩ := digits_sound read
    exact ⟨⟨[], _, by simp, digits, rfl⟩, rfl⟩

theorem signedDigits_complete {found rest : List Char} (signed : Numeral.Signed found)
    (ends : rest.head?.any Char.isDigit = false) :
    signedDigits (found ++ rest) = some (found, rest) := by
  obtain ⟨sign, digits, listed, digits', rfl⟩ := signed
  have read := digits_complete digits' ends
  simp only [List.mem_cons, List.not_mem_nil, or_false] at listed
  obtain rfl | rfl | rfl := listed
  · cases digits with
    | nil => exact absurd rfl digits'.1
    | cons first digits =>
      have digit : first.isDigit := (Bool.and_eq_true_iff.mp digits'.2).1
      rw [List.nil_append]
      unfold signedDigits
      split
      · rename_i same
        cases same
        cases digit
      · rename_i same
        cases same
        cases digit
      · exact read
  · simp [signedDigits, read]
  · simp [signedDigits, read]

theorem exponent_sound {text found rest : List Char} (read : exponent text = some (found, rest)) :
    (found = [] ∨ Numeral.Signed found) ∧
      ∃ mark ∈ ['e', 'E'], text = Numeral.marked mark found ++ rest := by
  unfold exponent at read
  have written {mark : Char} {text : List Char} (listed : mark ∈ ['e', 'E'])
      (read : signedDigits text = some (found, rest)) : (found = [] ∨ Numeral.Signed found) ∧
        ∃ mark' ∈ ['e', 'E'], mark :: text = Numeral.marked mark' found ++ rest := by
    obtain ⟨signed, rfl⟩ := signedDigits_sound read
    refine ⟨.inr signed, mark, listed, ?_⟩
    obtain ⟨sign, digits, -, digits', rfl⟩ := signed
    simp [Numeral.marked, digits'.1]
  split at read
  · exact written (by simp) read
  · exact written (by simp) read
  · cases read
    exact ⟨.inl rfl, 'e', by simp, rfl⟩

theorem exponent_complete {found rest : List Char} {mark : Char} (listed : mark ∈ ['e', 'E'])
    (signed : found = [] ∨ Numeral.Signed found) (ends : EndsNumber rest) :
    exponent (Numeral.marked mark found ++ rest) = some (found, rest) := by
  obtain rfl | signed := signed
  · change exponent rest = some ([], rest)
    unfold exponent
    split
    · cases ends
    · cases ends
    · rfl
  · have nonempty : found ≠ [] := by
      obtain ⟨sign, digits, -, digits', rfl⟩ := signed
      simp [digits'.1]
    have read := signedDigits_complete signed ends.not_isDigit
    rw [Numeral.marked, if_neg nonempty]
    simp only [List.mem_cons, List.not_mem_nil, or_false] at listed
    obtain rfl | rfl := listed <;> exact read

/-- A mark ends the digits before it, and what follows a part without a mark ends them too. -/
theorem marked_not_isDigit (found : List Char) {mark : Char} {rest : List Char}
    (notDigit : mark.isDigit = false) (ends : rest.head?.any Char.isDigit = false) :
    (Numeral.marked mark found ++ rest).head?.any Char.isDigit = false := by
  by_cases empty : found = []
  · subst empty
    exact ends
  · rw [Numeral.marked, if_neg empty]
    exact notDigit

theorem marked_not_point (found : List Char) {mark : Char} {rest : List Char}
    (notPoint : mark ≠ '.') (ends : EndsNumber rest) :
    (Numeral.marked mark found ++ rest).head? ≠ some '.' := by
  intro point
  by_cases empty : found = []
  · subst empty
    obtain ⟨others, rfl⟩ := List.head?_eq_some_iff.mp point
    cases ends
  · rw [Numeral.marked, if_neg empty] at point
    exact notPoint (Option.some.inj point)

theorem unsigned_sound {negative : Bool} {text rest : List Char} {numeral : Numeral}
    (read : unsigned negative text = some (numeral, rest)) :
    numeral.negative = negative ∧ numeral.WellFormed ∧ ∃ mark ∈ ['e', 'E'],
      text = numeral.whole ++ Numeral.marked '.' numeral.fraction ++
        Numeral.marked mark numeral.exponent ++ rest := by
  simp only [unsigned, Option.bind_eq_bind, Option.bind_eq_some_iff, Prod.exists] at read
  obtain ⟨whole, text', readWhole, fraction, text'', readFraction, exponent, rest', readExponent,
    same⟩ := read
  cases same
  obtain ⟨digits, trimmed, rfl⟩ := whole_sound readWhole
  obtain ⟨digits', rfl⟩ := fraction_sound readFraction
  obtain ⟨signed, mark, listed, rfl⟩ := exponent_sound readExponent
  exact ⟨rfl, ⟨digits, trimmed, digits', signed⟩, mark, listed, by simp⟩

theorem unsigned_complete {rest : List Char} {numeral : Numeral} {mark : Char}
    (formed : numeral.WellFormed) (listed : mark ∈ ['e', 'E']) (ends : EndsNumber rest) :
    unsigned numeral.negative (numeral.whole ++ Numeral.marked '.' numeral.fraction ++
      Numeral.marked mark numeral.exponent ++ rest) = some (numeral, rest) := by
  have marks : mark.isDigit = false ∧ mark ≠ '.' := by
    simp only [List.mem_cons, List.not_mem_nil, or_false] at listed
    obtain rfl | rfl := listed <;> decide
  have endsFraction := marked_not_isDigit numeral.exponent marks.1 ends.not_isDigit
  have readWhole := whole_complete formed.whole formed.trimmed
    (marked_not_isDigit numeral.fraction (show '.'.isDigit = false from rfl) endsFraction)
  have readFraction := fraction_complete formed.fraction endsFraction
    (marked_not_point numeral.exponent marks.2 ends)
  have readExponent := exponent_complete listed formed.exponent ends
  simp only [List.append_assoc, unsigned, readWhole, readFraction, readExponent,
    Option.bind_eq_bind, Option.bind_some]
  rfl

theorem numeral_sound {text rest : List Char} {numeral : Numeral}
    (read : Reader.numeral text = some (numeral, rest)) :
    ∃ taken, numeral.Spells taken ∧ text = taken ++ rest := by
  unfold Reader.numeral at read
  split at read
  · obtain ⟨negative, formed, mark, listed, rfl⟩ := unsigned_sound read
    exact ⟨_, ⟨formed, mark, listed, rfl⟩, by simp [Numeral.spelling, negative]⟩
  · obtain ⟨negative, formed, mark, listed, rfl⟩ := unsigned_sound read
    exact ⟨_, ⟨formed, mark, listed, rfl⟩, by simp [Numeral.spelling, negative]⟩

/-- A number begins with a sign or a digit. -/
theorem numeral_solid {numeral : Numeral} {taken : List Char} (written : numeral.Spells taken) :
    ∃ first others, taken = first :: others ∧ (first = '-' ∧ numeral.negative ∨
      first.isDigit ∧ numeral.negative = false) := by
  obtain ⟨formed, mark, -, rfl⟩ := written
  rw [Numeral.spelling]
  cases numeral.negative with
  | true => exact ⟨_, _, rfl, .inl ⟨rfl, rfl⟩⟩
  | false =>
    obtain ⟨first, digits, same⟩ := List.exists_cons_of_ne_nil formed.whole.1
    have digit := formed.whole.2
    rw [same] at digit ⊢
    exact ⟨_, _, rfl, .inr ⟨(Bool.and_eq_true_iff.mp digit).1, rfl⟩⟩

theorem numeral_complete {taken rest : List Char} {numeral : Numeral}
    (written : numeral.Spells taken) (ends : EndsNumber rest) :
    Reader.numeral (taken ++ rest) = some (numeral, rest) := by
  obtain ⟨first, others, begins, signed⟩ := numeral_solid written
  obtain ⟨formed, mark, listed, rfl⟩ := written
  have read := unsigned_complete formed listed ends
  unfold Reader.numeral
  split
  · rename_i text same
    obtain ⟨rfl, negative⟩ | ⟨digit, negative⟩ := signed
    · simp only [Numeral.spelling, negative, if_true, List.cons_append, List.nil_append,
        List.cons.injEq, true_and] at same
      rwa [← same, ← negative]
    · rw [begins] at same
      cases same
      cases digit
  · rename_i unsigned
    obtain ⟨rfl, negative⟩ | ⟨digit, negative⟩ := signed
    · exact absurd (by rw [begins]; rfl) (unsigned (others ++ rest))
    · simp only [Numeral.spelling, negative, if_neg Bool.false_ne_true, List.nil_append]
      rwa [negative] at read

/-! ## Quoted texts -/

theorem codeUnit_eq_some_iff {text rest : List Char} {unit : Nat} :
    codeUnit text = some (unit, rest) ↔
      ∃ digits, SpellsUnit digits unit ∧ text = digits ++ rest := by
  constructor
  · intro read
    unfold codeUnit at read
    split at read
    · split at read
      · rename_i digits
        cases read
        exact ⟨_, .digits digits, rfl⟩
      · cases read
    · cases read
  · rintro ⟨digits, ⟨hexadecimal⟩, rfl⟩
    simp [codeUnit, hexadecimal]

theorem partner_eq_some_iff {text rest : List Char} {unit : Nat} :
    partner text = some (unit, rest) ↔
      ∃ digits, SpellsUnit digits unit ∧ text = '\\' :: 'u' :: digits ++ rest := by
  unfold partner
  split
  · simp [codeUnit_eq_some_iff]
  · rename_i other
    refine ⟨nofun, ?_⟩
    rintro ⟨digits, -, rfl⟩
    exact absurd rfl (other (digits ++ rest))

theorem isHighSurrogate_iff {unit : Nat} :
    Escape.isHighSurrogate unit ↔ 0xD800 ≤ unit ∧ unit < 0xDC00 := by
  simp [Escape.isHighSurrogate]

theorem isLowSurrogate_iff {unit : Nat} :
    Escape.isLowSurrogate unit ↔ 0xDC00 ≤ unit ∧ unit < 0xE000 := by
  simp [Escape.isLowSurrogate]

theorem codeUnits_sound {text rest : List Char} {found : Char}
    (read : codeUnits text = some (found, rest)) :
    ∃ unit, SpellsCharacter ('\\' :: 'u' :: unit) found ∧ text = unit ++ rest := by
  simp only [codeUnits, Option.bind_eq_bind, Option.bind_eq_some_iff, Prod.exists] at read
  obtain ⟨unit, after, readUnit, read⟩ := read
  obtain ⟨digits, written, rfl⟩ := codeUnit_eq_some_iff.mp readUnit
  split at read
  · rename_i high
    simp only [Option.bind_eq_some_iff, Prod.exists] at read
    obtain ⟨low, others, readLow, read⟩ := read
    obtain ⟨digits', written', rfl⟩ := partner_eq_some_iff.mp readLow
    split at read
    · rename_i trails
      obtain ⟨rfl, rfl⟩ := Prod.mk.inj (Option.some.inj read)
      exact ⟨digits ++ '\\' :: 'u' :: digits', .pair written (isHighSurrogate_iff.mp high) written'
        (isLowSurrogate_iff.mp trails), by simp⟩
    · cases read
  · rename_i notHigh
    split at read
    · cases read
    · rename_i notLow
      obtain ⟨rfl, rfl⟩ := Prod.mk.inj (Option.some.inj read)
      rw [isHighSurrogate_iff] at notHigh
      rw [isLowSurrogate_iff] at notLow
      exact ⟨digits, .unit written (by omega), rfl⟩

theorem codeUnits_unit {digits : List Char} {unit : Nat} (written : SpellsUnit digits unit)
    (scalar : ¬(0xD800 ≤ unit ∧ unit < 0xE000)) (rest : List Char) :
    codeUnits (digits ++ rest) = some (Char.ofNat unit, rest) := by
  have notHigh : ¬Escape.isHighSurrogate unit := by
    rw [isHighSurrogate_iff]
    omega
  have notLow : ¬Escape.isLowSurrogate unit := by
    rw [isLowSurrogate_iff]
    omega
  simp only [codeUnits, codeUnit_eq_some_iff.mpr ⟨digits, written, rfl⟩, Option.bind_eq_bind,
    Option.bind_some, if_neg notHigh, if_neg notLow]

theorem codeUnits_pair {first second : List Char} {high low : Nat} (written : SpellsUnit first high)
    (leads : 0xD800 ≤ high ∧ high < 0xDC00) (written' : SpellsUnit second low)
    (trails : 0xDC00 ≤ low ∧ low < 0xE000) (rest : List Char) :
    codeUnits (first ++ ('\\' :: 'u' :: second ++ rest)) =
      some (Escape.ofSurrogates high low, rest) := by
  simp only [codeUnits, codeUnit_eq_some_iff.mpr ⟨first, written, rfl⟩,
    partner_eq_some_iff.mpr ⟨second, written', rfl⟩, Option.bind_eq_bind, Option.bind_some,
    if_pos (isHighSurrogate_iff.mpr leads), if_pos (isLowSurrogate_iff.mpr trails)]

theorem mem_letters_iff {letter character : Char} : (letter, character) ∈ letters ↔
    "\"\\/bfnrt".toList.contains letter ∧ character = Escape.ofLetter letter := by
  simp only [letters, List.mem_cons, Prod.mk.injEq, List.not_mem_nil, or_false,
    List.contains_eq_mem, decide_eq_true_eq]
  constructor
  · rintro (⟨rfl, rfl⟩ | ⟨rfl, rfl⟩ | ⟨rfl, rfl⟩ | ⟨rfl, rfl⟩ | ⟨rfl, rfl⟩ | ⟨rfl, rfl⟩ |
      ⟨rfl, rfl⟩ | ⟨rfl, rfl⟩) <;> decide
  · rintro ⟨listed, rfl⟩
    have listed : letter ∈ ['"', '\\', '/', 'b', 'f', 'n', 'r', 't'] := listed
    simp only [List.mem_cons, List.not_mem_nil, or_false] at listed
    rcases listed with rfl | rfl | rfl | rfl | rfl | rfl | rfl | rfl <;> decide

theorem character_sound {text rest : List Char} {found : Char}
    (read : character text = some (found, rest)) :
    ∃ unit, SpellsCharacter unit found ∧ text = unit ++ rest := by
  unfold character at read
  split at read
  · obtain ⟨unit, written, rfl⟩ := codeUnits_sound read
    exact ⟨_, written, rfl⟩
  · split at read
    · rename_i listed
      cases read
      exact ⟨['\\', _], .letter (mem_letters_iff.mpr ⟨listed, rfl⟩), rfl⟩
    · cases read
  · rename_i first others _ _
    split at read
    · rename_i plain
      cases read
      simp only [Bool.and_eq_true, decide_eq_true_eq, bne_iff_ne] at plain
      exact ⟨[found], .plain plain.1.1 plain.1.2 plain.2, rfl⟩
    · cases read
  · cases read

theorem character_complete {unit : List Char} {found : Char} (written : SpellsCharacter unit found)
    (rest : List Char) : character (unit ++ rest) = some (found, rest) := by
  cases written with
  | plain visible unquoted unescaped =>
    rw [List.singleton_append]
    unfold character
    split
    · rename_i same
      exact absurd (List.cons.inj same).1 unescaped
    · rename_i same
      exact absurd (List.cons.inj same).1 unescaped
    · rename_i same
      cases same
      simp [visible, unquoted, unescaped]
    · rename_i same
      cases same
  | letter listed =>
    rename_i letter
    obtain ⟨known, rfl⟩ := mem_letters_iff.mp listed
    -- The letter of code units is not in the table.
    have notUnit : letter ≠ 'u' := by
      rintro rfl
      cases known
    simp_all [character]
  | unit written scalar => exact codeUnits_unit written scalar rest
  | pair written leads written' trails =>
    rw [List.append_assoc]
    exact codeUnits_pair written leads written' trails rest

/-- A character does not begin like the closing quote. -/
theorem spellsCharacter_solid {unit : List Char} {found : Char}
    (written : SpellsCharacter unit found) :
    ∃ first others, unit = first :: others ∧ first ≠ '"' := by
  cases written with
  | plain visible unquoted unescaped => exact ⟨_, _, rfl, unquoted⟩
  | letter listed => exact ⟨_, _, rfl, by decide⟩
  | unit written scalar => exact ⟨_, _, rfl, by decide⟩
  | pair written leads written' trails => exact ⟨_, _, rfl, by decide⟩

theorem characters_sound {count : Nat} {text found rest : List Char}
    (read : characters count text = some (found, rest)) :
    ∃ inner, SpellsCharacters inner found ∧ text = inner ++ '"' :: rest := by
  fun_induction characters count text generalizing found with
  | case1 count others =>
    cases read
    exact ⟨[], .nil, rfl⟩
  | case2 text other => cases read
  | case3 text count other ih =>
    simp only [Option.bind_eq_bind, Option.bind_eq_some_iff, Prod.exists] at read
    obtain ⟨first, after, readFirst, others, rest', readOthers, same⟩ := read
    cases same
    obtain ⟨unit, written, rfl⟩ := character_sound readFirst
    obtain ⟨inner, inside, rfl⟩ := ih _ readOthers
    exact ⟨unit ++ inner, .cons written inside, by simp⟩

theorem characters_complete {inner found : List Char} (inside : SpellsCharacters inner found)
    {count : Nat} (enough : inner.length ≤ count) (rest : List Char) :
    characters count (inner ++ '"' :: rest) = some (found, rest) := by
  -- A character takes up at least one place, so the count is not used up before the text is.
  induction inside generalizing count with
  | nil => cases count <;> rfl
  | cons written inside ih =>
    rename_i unit inner character found
    obtain ⟨first, others, rfl, unquoted⟩ := spellsCharacter_solid written
    have read := character_complete written (inner ++ '"' :: rest)
    cases count with
    | zero => simp at enough
    | succ count =>
      have fewer : inner.length ≤ count := by
        simp only [List.length_append, List.length_cons] at enough
        omega
      rw [List.append_assoc, characters, read]
      · simp only [Option.bind_eq_bind, Option.bind_some, ih fewer]
        rfl
      · intro others' same
        exact unquoted (List.cons.inj same).1

theorem quoted_realizes : Realizes quoted Quotes where
  sound := by
    intro text name rest read
    unfold quoted at read
    split at read
    · obtain ⟨⟨found, rest'⟩, read, same⟩ := Option.map_eq_some_iff.mp read
      cases same
      obtain ⟨inner, inside, rfl⟩ := characters_sound read
      exact ⟨_, .quotes inside, by simp⟩
    · cases read
  complete := by
    rintro taken name rest ⟨inside⟩ -
    rename_i inner characters
    have enough : inner.length ≤ (inner ++ '"' :: rest).length := by simp
    rw [List.append_assoc]
    simp only [List.cons_append, List.nil_append, quoted, characters_complete inside enough]
    rfl
  solid := by
    rintro taken name ⟨inside⟩
    exact ⟨_, _, rfl, by decide⟩

/-! ## Values -/

/-- A value that begins with a sign or a digit is read as a number. -/
theorem scalar_number {first : Char} (numeric : first = '-' ∨ first.isDigit) (text : List Char) :
    scalar (first :: text) = (numeral (first :: text)).bind fun (numeral, rest) =>
      numeral.value?.bind fun value => some (number value, rest) := by
  have other {letter : Char} (plain : letter ≠ '-' ∧ letter.isDigit = false) : first ≠ letter := by
    rintro rfl
    simp [plain] at numeric
  rw [scalar]
  · rfl
  all_goals
    intro rest same
    exact other (by decide) (List.cons.inj same).1

theorem isDelimiter_numeric {first : Char} (numeric : first = '-' ∨ first.isDigit) :
    isDelimiter first = false := by
  rw [Bool.eq_false_iff]
  intro delimiter
  have ends : EndsNumber [first] := endsNumber_cons delimiter
  obtain rfl | digit := numeric
  · cases delimiter
  · simp [EndsNumber, digit] at ends

theorem scalar_realizes : Realizes scalar SpellsScalar where
  sound := by
    intro text json rest read
    unfold scalar at read
    split at read
    · cases read
      exact ⟨_, .null, rfl⟩
    · cases read
      exact ⟨_, .true, rfl⟩
    · cases read
      exact ⟨_, .false, rfl⟩
    · obtain ⟨⟨found, rest'⟩, read, same⟩ := Option.map_eq_some_iff.mp read
      cases same
      obtain ⟨taken, quotes, same⟩ := quoted_realizes.sound read
      exact ⟨taken, .string quotes, same⟩
    · simp only [Option.bind_eq_bind, Option.bind_eq_some_iff, Prod.exists] at read
      obtain ⟨numeral, rest', read, value, small, same⟩ := read
      cases same
      obtain ⟨taken, written, rfl⟩ := numeral_sound read
      exact ⟨taken, .number written small, rfl⟩
  complete := by
    intro taken json rest written ends
    cases written with
    | null => rfl
    | true => rfl
    | false => rfl
    | string quotes =>
      have read := quoted_realizes.complete quotes ends
      obtain ⟨inside⟩ := quotes
      simp only [List.cons_append] at read ⊢
      rw [scalar, read]
      rfl
    | number written small =>
      have read := numeral_complete written ends
      obtain ⟨first, others, rfl, signed⟩ := numeral_solid written
      rw [List.cons_append] at read
      rw [List.cons_append, scalar_number (signed.imp And.left And.left), read]
      simp [small]
  solid := by
    intro taken json written
    cases written with
    | null => exact ⟨_, _, rfl, by decide⟩
    | true => exact ⟨_, _, rfl, by decide⟩
    | false => exact ⟨_, _, rfl, by decide⟩
    | string quotes => exact quoted_realizes.solid quotes
    | number written small =>
      obtain ⟨first, others, rfl, signed⟩ := numeral_solid written
      exact ⟨first, others, rfl, isDelimiter_numeric (signed.imp And.left And.left)⟩

section Enclosed

variable {α : Type} {part : Reader α} {spells : List Char → α → Prop} {closing : Char}

/-- A part with blanks around it is read up to the blanks after it. -/
theorem Realizes.padded (realizes : Realizes part spells) {text rest : List Char} {value : α}
    (here : Padded spells text value) (ends : EndsNumber rest) : ∃ after, Blank after ∧
      part (afterBlanks (text ++ rest)) = some (value, after ++ rest) := by
  obtain ⟨before, inner, after, blank, written, blank', rfl⟩ := here
  refine ⟨after, blank', ?_⟩
  rw [List.append_assoc, List.append_assoc, realizes.afterBlanks_append blank written]
  exact realizes.complete written (endsNumber_append blank' ends)

theorem Realizes.padded_sound (realizes : Realizes part spells) {text rest : List Char} {value : α}
    (read : part (afterBlanks text) = some (value, rest)) :
    ∃ taken, Padded spells taken value ∧ text = taken ++ afterBlanks rest := by
  obtain ⟨before, blank, same⟩ := eq_append_afterBlanks text
  obtain ⟨inner, written, same'⟩ := realizes.sound read
  obtain ⟨after, blank', same''⟩ := eq_append_afterBlanks rest
  refine ⟨before ++ inner ++ after, ⟨before, inner, after, blank, written, blank', rfl⟩, ?_⟩
  calc text
    _ = before ++ (inner ++ (after ++ afterBlanks rest)) := by rw [← same'', ← same', ← same]
    _ = before ++ inner ++ after ++ afterBlanks rest := by simp

theorem listed_sound (realizes : Realizes part spells) {count : Nat} {text rest : List Char}
    {values : List α} (read : listed part closing count text = some (values, rest)) :
    ∃ inner, Listed spells inner values ∧ text = inner ++ closing :: rest := by
  induction count generalizing text values with
  | zero => cases read
  | succ count ih =>
    simp only [listed, Option.bind_eq_bind, Option.bind_eq_some_iff, Prod.exists] at read
    obtain ⟨first, after, readFirst, read⟩ := read
    obtain ⟨taken, here, rfl⟩ := realizes.padded_sound readFirst
    split at read
    · rename_i text' comma
      simp only [Option.bind_eq_some_iff, Prod.exists] at read
      obtain ⟨others, rest', readOthers, same⟩ := read
      cases same
      obtain ⟨inner, more, rfl⟩ := ih readOthers
      exact ⟨taken ++ ',' :: inner, .cons here more, by simp [comma]⟩
    · rename_i last rest' _ found
      split at read
      · rename_i same
        cases read
        exact ⟨taken, .last here, by rw [found, same]⟩
      · cases read
    · cases read

theorem Realizes.padded_solid (realizes : Realizes part spells) {text : List Char} {value : α}
    (here : Padded spells text value) (rest : List Char) :
    ∃ first others, afterBlanks (text ++ rest) = first :: others ∧ isDelimiter first = false := by
  obtain ⟨before, inner, after, blank, written, -, rfl⟩ := here
  have begins := realizes.afterBlanks_append blank written (after ++ rest)
  obtain ⟨first, others, rfl, solid⟩ := realizes.solid written
  exact ⟨first, others ++ (after ++ rest), by simpa using begins, solid⟩

theorem Realizes.length_pos (realizes : Realizes part spells) {text : List Char} {value : α}
    (here : Padded spells text value) : 0 < text.length := by
  obtain ⟨first, others, begins, -⟩ := realizes.padded_solid here []
  cases text with
  | nil => cases begins
  | cons first text => exact Nat.succ_pos _

theorem Realizes.listed_solid (realizes : Realizes part spells) {text : List Char}
    {values : List α} (written : Listed spells text values) (rest : List Char) :
    ∃ first others, afterBlanks (text ++ rest) = first :: others ∧ isDelimiter first = false := by
  cases written with
  | last here => exact realizes.padded_solid here rest
  | cons here more =>
    rw [List.append_assoc]
    exact realizes.padded_solid here _

/-- A bracket that ends a list. -/
structure Closes (closing : Char) : Prop where
  delimits : isDelimiter closing
  notComma : closing ≠ ','
  notBlank : isBlank closing = false

theorem listed_complete (realizes : Realizes part spells) (closes : Closes closing)
    {inner : List Char} {values : List α} (written : Listed spells inner values) {count : Nat}
    (enough : inner.length ≤ count) (rest : List Char) :
    listed part closing count (inner ++ closing :: rest) = some (values, rest) := by
  induction written generalizing count with
  | last here =>
    obtain ⟨after, blank, read⟩ := realizes.padded here
      (show EndsNumber (closing :: rest) from endsNumber_cons closes.delimits)
    have nonempty := realizes.length_pos here
    obtain ⟨count, rfl⟩ := Nat.exists_eq_add_one.mpr (show 0 < count by omega)
    simp only [listed, read, Option.bind_eq_bind, Option.bind_some, afterBlanks_append blank,
      afterBlanks_cons closes.notBlank]
    split
    · rename_i same
      exact absurd (List.cons.inj same).1 closes.notComma
    · rename_i same
      cases same
      exact if_pos rfl
    · contradiction
  | cons here more ih =>
    rename_i text others value values
    obtain ⟨after, blank, read⟩ := realizes.padded here
      (show EndsNumber (',' :: (others ++ closing :: rest)) from rfl)
    simp only [List.length_append, List.length_cons] at enough
    obtain ⟨count, rfl⟩ := Nat.exists_eq_add_one.mpr (show 0 < count by omega)
    have fewer : others.length ≤ count := by omega
    rw [List.append_assoc, List.cons_append]
    simp only [listed, read, Option.bind_eq_bind, Option.bind_some, afterBlanks_append blank,
      afterBlanks_cons (show isBlank ',' = false from rfl), ih fewer]
    rfl

theorem enclosed_sound (realizes : Realizes part spells) {text rest : List Char} {values : List α}
    (read : enclosed part closing text = some (values, rest)) :
    ∃ inner, Enclosed spells inner values ∧ text = inner ++ closing :: rest := by
  unfold enclosed at read
  split at read
  · cases read
  · rename_i first after found
    split at read
    · rename_i same
      cases read
      obtain ⟨before, blank, whole⟩ := eq_append_afterBlanks text
      exact ⟨before, .nothing blank, by rw [← same, ← found, ← whole]⟩
    · obtain ⟨inner, written, rfl⟩ := listed_sound realizes read
      exact ⟨inner, .parts written, rfl⟩

theorem enclosed_complete (realizes : Realizes part spells) (closes : Closes closing)
    {inner : List Char} {values : List α} (written : Enclosed spells inner values)
    (rest : List Char) :
    enclosed part closing (inner ++ closing :: rest) = some (values, rest) := by
  cases written with
  | nothing blank =>
    simp [enclosed, afterBlanks_append blank, afterBlanks_cons closes.notBlank]
  | parts written =>
    have enough : inner.length ≤ (inner ++ closing :: rest).length := by simp
    obtain ⟨first, others, begins, solid⟩ := realizes.listed_solid written (closing :: rest)
    have notClosing : first ≠ closing := by
      rintro rfl
      exact Bool.false_ne_true (solid.symm.trans closes.delimits)
    simp only [enclosed, begins, if_neg notClosing]
    exact listed_complete realizes closes written enough rest

end Enclosed

theorem member_realizes {inside : Reader Json} {spells : List Char → Json → Prop}
    (realizes : Realizes inside spells) : Realizes (member inside) (SpellsMember spells) where
  sound := by
    intro text found rest read
    simp only [member, Option.bind_eq_bind, Option.bind_eq_some_iff, Prod.exists] at read
    obtain ⟨name, after, readName, read⟩ := read
    split at read
    · rename_i text' colon
      simp only [Option.bind_eq_some_iff, Prod.exists] at read
      obtain ⟨value, rest', readValue, same⟩ := read
      cases same
      obtain ⟨quoted, quotes, rfl⟩ := quoted_realizes.sound readName
      obtain ⟨before, blank, same⟩ := eq_append_afterBlanks after
      obtain ⟨after', blank', same'⟩ := eq_append_afterBlanks text'
      obtain ⟨taken, written, same''⟩ := realizes.sound readValue
      refine ⟨_, .member quotes blank blank' written, ?_⟩
      rw [same, colon, same', same'']
      simp
    · cases read
  complete := by
    rintro taken found rest ⟨quotes, blank, blank', written⟩ ends
    rename_i name before after text key value
    have readName := quoted_realizes.complete quotes
      (endsNumber_append blank (show EndsNumber (':' :: (after ++ (text ++ rest))) from rfl))
    simp only [List.append_assoc, List.cons_append]
    simp only [member, readName, Option.bind_eq_bind, Option.bind_some, afterBlanks_append blank,
      afterBlanks_cons (show isBlank ':' = false from rfl),
      realizes.afterBlanks_append blank' written, realizes.complete written ends]
    rfl
  solid := by
    rintro taken found ⟨quotes, blank, blank', written⟩
    obtain ⟨first, others, rfl, solid⟩ := quoted_realizes.solid quotes
    exact ⟨first, _, rfl, solid⟩

theorem gathers_iff {fields : Fields Json} {members : List (String × Json)} :
    Gathers fields members ↔ fields = .ofList members := by
  have gathered : Gathers (.ofList members) members := by
    refine ⟨?_, fun name => ?_⟩
    · rw [Fields.ofList, Fields.names_insertAll]
      simp
    · rw [Fields.ofList, Fields.get?_insertAll]
      simp
  constructor
  · intro gathers
    apply Fields.eq_of_names_eq
    · rw [gathers.names_eq, gathered.names_eq]
    · intro name
      rw [gathers.get?_eq, gathered.get?_eq]
  · rintro rfl
    exact gathered

theorem closes_bracket : Closes ']' := ⟨by decide, by decide, by decide⟩

theorem closes_brace : Closes '\x7d' := ⟨by decide, by decide, by decide⟩

theorem value_complete {inside : Nat} (ih : Realizes (value inside) (Spells inside))
    {taken rest : List Char} {json : Json} (written : Spells (inside + 1) taken json)
    (ends : EndsNumber rest) : value (inside + 1) (taken ++ rest) = some (json, rest) := by
  obtain written | written := written
  · have read := scalar_realizes.complete written ends
    unfold value
    -- A scalar does not begin like an array or an object, since it could not be read.
    split
    · rename_i same
      rw [same] at read
      cases read
    · rename_i same
      rw [same] at read
      cases read
    · exact read
  · cases written with
    | array enclosed =>
      rw [List.append_assoc, List.cons_append, value, List.singleton_append,
        enclosed_complete ih closes_bracket enclosed]
      rfl
    | object enclosed gathers =>
      cases gathers_iff.mp gathers
      rw [List.append_assoc, List.cons_append, value, List.singleton_append,
        enclosed_complete (member_realizes ih) closes_brace enclosed]
      rfl

/-- What is read at some level of nesting is what may be written at this level. -/
theorem value_realizes (levels : Nat) : Realizes (value levels) (Spells levels) := by
  induction levels with
  | zero => exact scalar_realizes
  | succ inside ih =>
    refine ⟨fun {text json rest} read => ?_, value_complete ih, fun {taken json} written => ?_⟩
    · unfold value at read
      split at read
      · rename_i found
        cases found
        obtain ⟨⟨items, rest'⟩, read, same⟩ := Option.map_eq_some_iff.mp read
        cases same
        obtain ⟨inner, enclosed, rfl⟩ := enclosed_sound ih read
        exact ⟨_, .inr (.array enclosed), by simp⟩
      · rename_i found
        cases found
        obtain ⟨⟨fields, rest'⟩, read, same⟩ := Option.map_eq_some_iff.mp read
        cases same
        obtain ⟨inner, enclosed, rfl⟩ := enclosed_sound (member_realizes ih) read
        exact ⟨_, .inr (.object enclosed (gathers_iff.mpr rfl)), by simp⟩
      · obtain ⟨taken, written, rfl⟩ := scalar_realizes.sound read
        exact ⟨taken, .inl written, rfl⟩
    · obtain written | ⟨enclosed⟩ | ⟨enclosed⟩ := written
      · exact scalar_realizes.solid written
      · exact ⟨_, _, rfl, by decide⟩
      · exact ⟨_, _, rfl, by decide⟩

end Reader

/-- Reading finds the value that a text stands for, and no other. -/
theorem parse?_eq_some_iff {source : String} {json : Json} :
    parse? source = some json ↔ Spelled source json := by
  have realizes := Reader.value_realizes depthLimit
  simp only [parse?, Option.bind_eq_bind, Option.bind_eq_some_iff, Prod.exists]
  constructor
  · rintro ⟨value, rest, read, ends⟩
    split at ends
    · rename_i empty
      cases ends
      obtain ⟨taken, padded, same⟩ := realizes.padded_sound read
      rw [List.isEmpty_iff.mp empty, List.append_nil] at same
      rwa [Spelled, same]
    · cases ends
  · intro padded
    obtain ⟨after, blank, read⟩ := realizes.padded padded Reader.endsNumber_nil
    rw [List.append_nil, List.append_nil] at read
    exact ⟨json, after, read, by simp [Reader.afterBlanks_eq_nil_iff.mpr blank]⟩

theorem parse?_eq_none_iff {source : String} :
    parse? source = none ↔ ∀ json, ¬Spelled source json := by
  simp only [Option.eq_none_iff_forall_ne_some, ne_eq, parse?_eq_some_iff]

end PreviewLint.Json
