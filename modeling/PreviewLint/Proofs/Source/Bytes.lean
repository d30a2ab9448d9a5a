import PreviewLint.Proofs.Source.Alignment

/-!
# Strings in the bytes of a text

A scanner that keeps an index into the bytes of a text does not decode the text: it compares
bytes with those of ASCII characters, skips an escape as two bytes and anything else as one, and
so may come to stand inside of a character. This file proves that it skips a string nevertheless
as the lexemes of an outline do, which are cut out of the characters, and hence that it skips
exactly the strings of the grammar.

The proof has two halves. Bytes can be read as characters with small codes (`codes`), and what is
skipped from an index on has the length that `quotedLength`, `blockLength` and `stringLength` give
for the codes from there on. These lengths are those of the characters, counted in bytes, because
no byte of a character that is not one of ASCII has the code of one that is.
-/

namespace PreviewLint.Bytes

open Outline GraphQL Peg

/-- The bytes of a text in UTF-8. -/
def encode (text : List Char) : List UInt8 := text.flatMap String.utf8EncodeChar

/-- Three quotes. -/
def quotes : List UInt8 := encode ['"', '"', '"']

/-- Three quotes after a backslash. -/
def escapedQuotes : List UInt8 := encode ['\\', '"', '"', '"']

/-- The index behind a block string, from an index behind its opening quotes on. -/
def skipBlock (bytes : List UInt8) (index : Nat) : Nat :=
  if index < bytes.length then
    if escapedQuotes.isPrefixOf (bytes.drop index) then skipBlock bytes (index + 4)
    else if quotes.isPrefixOf (bytes.drop index) then index + 3
    else skipBlock bytes (index + 1)
  else bytes.length

/-- The index behind a quoted string, from an index behind its opening quote on. -/
def skipQuoted (bytes : List UInt8) (index : Nat) : Nat :=
  if inside : index < bytes.length then
    let character := Char.ofUInt8 bytes[index]
    if character = '\\' then skipQuoted bytes (index + 2)
    else if character = '"' then index + 1
    else if character = '\n' then index
    else skipQuoted bytes (index + 1)
  else bytes.length

/-- The index of the first byte that is not accepted, from an index on. -/
def skipWhile (accepts : Char → Bool) (bytes : List UInt8) (index : Nat) : Nat :=
  if inside : index < bytes.length then
    if accepts (Char.ofUInt8 bytes[index]) then skipWhile accepts bytes (index + 1) else index
  else index

/--
The index behind a string, or a block string, that begins at an index. There is none behind the
end of the bytes.
-/
def skipString (bytes : List UInt8) (start : Nat) : Option Nat :=
  if start ≤ bytes.length then
    if quotes.isPrefixOf (bytes.drop start) then some (skipBlock bytes (start + 3))
    else some (skipQuoted bytes (start + 1))
  else none

/-! ## Where a skip ends -/

theorem skipBlock_bounds (bytes : List UInt8) (index : Nat) :
    min index bytes.length ≤ skipBlock bytes index ∧ skipBlock bytes index ≤ bytes.length := by
  fun_induction skipBlock bytes index with
  | case1 index inside escaped ih => omega
  | case2 index inside _ closes =>
      have long := (List.isPrefixOf_iff_prefix.mp closes).length_le
      have three : quotes.length = 3 := rfl
      rw [List.length_drop] at long
      omega
  | case3 index inside _ _ ih => omega
  | case4 index outside => omega

theorem skipQuoted_bounds (bytes : List UInt8) (index : Nat) :
    min index bytes.length ≤ skipQuoted bytes index ∧ skipQuoted bytes index ≤ bytes.length := by
  fun_induction skipQuoted bytes index with
  | case1 index inside _ _ ih => omega
  | case2 index inside => omega
  | case3 index inside => omega
  | case4 index inside _ _ _ _ ih => omega
  | case5 index outside => omega

/-! ## The bytes of a character -/

theorem encode_cons (character : Char) (text : List Char) :
    encode (character :: text) = String.utf8EncodeChar character ++ encode text :=
  List.flatMap_cons

theorem encode_append (first second : List Char) :
    encode (first ++ second) = encode first ++ encode second :=
  List.flatMap_append

/-- A text begins with a word if its bytes begin with those of the word. -/
theorem encode_prefix_iff {word text : List Char} : encode word <+: encode text ↔ word <+: text := by
  constructor
  · rintro ⟨more, same⟩
    apply List.isPrefix_of_utf8Encode_append_eq_utf8Encode more.toByteArray
    rw [List.utf8Encode, ← List.toByteArray_append]
    exact congrArg List.toByteArray same
  · rintro ⟨more, rfl⟩
    exact ⟨encode more, (encode_append word more).symm⟩

/-- A character is its only byte, or neither it nor any byte of it is one of ASCII. -/
theorem encodeChar_cases (character : Char) :
    (∃ byte, String.utf8EncodeChar character = [byte] ∧ Char.ofUInt8 byte = character) ∨
      128 ≤ character.toNat ∧ ∀ byte ∈ String.utf8EncodeChar character, 128 ≤ byte.toNat := by
  have code : character.val.toNat = character.toNat := rfl
  simp only [String.utf8EncodeChar, code]
  split
  · next small =>
      refine Or.inl ⟨_, rfl, Char.ext (UInt32.toNat_inj.mp ?_)⟩
      have same : ∀ byte : UInt8, (Char.ofUInt8 byte).val.toNat = byte.toNat := fun _ => rfl
      rw [same, UInt8.toNat_ofNat', code]
      omega
  · next large =>
      refine Or.inr ⟨by omega, fun byte member => ?_⟩
      split at member
      · simp only [List.mem_cons, List.not_mem_nil, or_false] at member
        rcases member with rfl | rfl <;> rw [UInt8.toNat_ofNat'] <;> omega
      · split at member
        · simp only [List.mem_cons, List.not_mem_nil, or_false] at member
          rcases member with rfl | rfl | rfl <;> rw [UInt8.toNat_ofNat'] <;> omega
        · simp only [List.mem_cons, List.not_mem_nil, or_false] at member
          rcases member with rfl | rfl | rfl | rfl <;> rw [UInt8.toNat_ofNat'] <;> omega

/-- The bytes of a character after its first one are none of ASCII. -/
theorem exists_encodeChar (character : Char) :
    ∃ first more, String.utf8EncodeChar character = first :: more ∧
      ∀ byte ∈ more, 128 ≤ byte.toNat := by
  rcases encodeChar_cases character with ⟨byte, bytes, _⟩ | ⟨_, foreign⟩
  · exact ⟨byte, [], bytes, List.forall_mem_nil _⟩
  · cases bytes : String.utf8EncodeChar character with
    | nil => exact absurd bytes String.utf8EncodeChar_ne_nil
    | cons first more =>
        rw [bytes, List.forall_mem_cons] at foreign
        exact ⟨first, more, rfl, foreign.2⟩

theorem ofUInt8_ne_of_foreign {byte : UInt8} (foreign : 128 ≤ byte.toNat) {ascii : Char}
    (small : ascii.toNat < 128) : Char.ofUInt8 byte ≠ ascii := by
  rintro rfl
  have code : (Char.ofUInt8 byte).toNat = byte.toNat := rfl
  omega

/-- A byte of a character is that of an ASCII character only if this is the character. -/
theorem ofUInt8_ne {character ascii : Char} {byte : UInt8}
    (member : byte ∈ String.utf8EncodeChar character) (differs : character ≠ ascii)
    (small : ascii.toNat < 128) : Char.ofUInt8 byte ≠ ascii := by
  rcases encodeChar_cases character with ⟨only, bytes, code⟩ | ⟨_, foreign⟩
  · rw [bytes, List.mem_singleton] at member
    rw [member, code]
    exact differs
  · exact ofUInt8_ne_of_foreign (foreign byte member) small

/-! ## Bytes as characters -/

/-- Some bytes, each read as the character of its code. -/
def codes (bytes : List UInt8) : List Char := bytes.map Char.ofUInt8

theorem length_codes (bytes : List UInt8) : (codes bytes).length = bytes.length := List.length_map _

theorem codes_append (first second : List UInt8) :
    codes (first ++ second) = codes first ++ codes second := List.map_append

theorem codes_drop {bytes : List UInt8} {index : Nat} (inside : index < bytes.length) :
    codes (bytes.drop index) = Char.ofUInt8 bytes[index] :: codes (bytes.drop (index + 1)) := by
  rw [List.drop_eq_getElem_cons inside, codes, List.map_cons, codes]

theorem codes_drop_of_le {bytes : List UInt8} {index : Nat} (outside : bytes.length ≤ index) :
    codes (bytes.drop index) = [] := by
  rw [List.drop_eq_nil_of_le outside, codes, List.map_nil]

theorem ofUInt8_injective : Function.Injective Char.ofUInt8 := by
  intro first second same
  apply UInt8.toNat_inj.mp
  exact congrArg Char.toNat same

theorem codes_prefix_iff {word bytes : List UInt8} : codes word <+: codes bytes ↔ word <+: bytes := by
  constructor
  · intro begins
    rcases List.prefix_map_iff.mp begins with ⟨front, shorter, same⟩
    rw [List.map_injective_iff.mpr ofUInt8_injective same]
    exact shorter
  · exact fun begins => begins.map Char.ofUInt8

/-! ## Skips and lengths -/

theorem skipWhile_eq (accepts : Char → Bool) (bytes : List UInt8) (index : Nat) :
    skipWhile accepts bytes index =
      index + ((codes (bytes.drop index)).takeWhile accepts).length := by
  fun_induction skipWhile accepts bytes index with
  | case1 index inside accepted ih =>
      rw [ih, codes_drop inside, List.takeWhile_cons_of_pos accepted, List.length_cons]
      omega
  | case2 index inside refused =>
      rw [codes_drop inside, List.takeWhile_cons_of_neg refused]
      rfl
  | case3 index outside =>
      rw [codes_drop_of_le (Nat.le_of_not_lt outside)]
      rfl

theorem skipQuoted_eq (bytes : List UInt8) (index : Nat) :
    skipQuoted bytes index =
      min index bytes.length + quotedLength (codes (bytes.drop index)) := by
  fun_induction skipQuoted bytes index with
  | case1 index inside character escape ih =>
      have code : Char.ofUInt8 bytes[index] = '\\' := escape
      rw [ih, codes_drop inside, code]
      by_cases more : index + 1 < bytes.length
      · rw [codes_drop more, quotedLength]
        change _ = _ + (quotedLength (codes (bytes.drop (index + 2))) + 2)
        omega
      · rw [codes_drop_of_le (by omega), codes_drop_of_le (by omega)]
        have single : quotedLength ['\\'] = 1 := rfl
        have none : quotedLength [] = 0 := rfl
        omega
  | case2 index inside character _ quote =>
      have code : Char.ofUInt8 bytes[index] = '"' := quote
      rw [codes_drop inside, code, quotedLength]
      omega
  | case3 index inside character _ _ feed =>
      have code : Char.ofUInt8 bytes[index] = '\n' := feed
      rw [codes_drop inside, code, quotedLength]
      omega
  | case4 index inside character escape quote feed ih =>
      rw [ih, codes_drop inside, quotedLength_cons (fun same => absurd same escape) quote feed]
      omega
  | case5 index outside =>
      rw [codes_drop_of_le (Nat.le_of_not_lt outside)]
      have none : quotedLength [] = 0 := rfl
      omega

theorem blockLength_other {character : Char} {text : List Char}
    (escape : ¬['\\', '"', '"', '"'] <+: character :: text)
    (quotes : ¬['"', '"', '"'] <+: character :: text) :
    blockLength (character :: text) = blockLength text + 1 := by
  rw [blockLength]
  · rintro more rfl rfl
    exact escape ⟨more, rfl⟩
  · rintro more rfl rfl
    exact quotes ⟨more, rfl⟩

/-- What follows a word in some bytes. -/
theorem codes_of_prefix {word bytes : List UInt8} {index : Nat} (begins : word <+: bytes.drop index) :
    codes (bytes.drop index) = codes word ++ codes (bytes.drop (index + word.length)) ∧
      index + word.length ≤ max index bytes.length := by
  rcases begins with ⟨rest, same⟩
  have behind : bytes.drop (index + word.length) = rest := by
    rw [← List.drop_drop, ← same, List.drop_left]
  have lengths := congrArg List.length same
  rw [List.length_append, List.length_drop] at lengths
  rw [behind, ← same, codes_append]
  exact ⟨rfl, by omega⟩

theorem skipBlock_eq (bytes : List UInt8) (index : Nat) :
    skipBlock bytes index = min index bytes.length + blockLength (codes (bytes.drop index)) := by
  fun_induction skipBlock bytes index with
  | case1 index inside escaped ih =>
      obtain ⟨begins, within⟩ := codes_of_prefix (List.isPrefixOf_iff_prefix.mp escaped)
      have four : escapedQuotes.length = 4 := rfl
      have escape : blockLength (codes escapedQuotes ++ codes (bytes.drop (index + 4))) =
          blockLength (codes (bytes.drop (index + 4))) + 4 := rfl
      rw [ih, begins, four, escape]
      omega
  | case2 index inside _ closes =>
      obtain ⟨begins, _⟩ := codes_of_prefix (List.isPrefixOf_iff_prefix.mp closes)
      have closing : ∀ rest, blockLength (codes quotes ++ rest) = 3 := fun _ => rfl
      rw [begins, closing]
      omega
  | case3 index inside escaped closes ih =>
      rw [List.isPrefixOf_iff_prefix, ← codes_prefix_iff, codes_drop inside] at escaped closes
      rw [ih, codes_drop inside, blockLength_other escaped closes]
      omega
  | case4 index outside =>
      rw [codes_drop_of_le (Nat.le_of_not_lt outside)]
      have none : blockLength [] = 0 := rfl
      omega

/-- From a quote on, skipping a string comes to the length of a string lexeme. -/
theorem skipString_eq {bytes : List UInt8} {start : Nat} {rest : List Char}
    (opens : codes (bytes.drop start) = '"' :: rest) :
    skipString bytes start = some (start + 1 + stringLength rest) := by
  have inside : start < bytes.length := by
    by_contra outside
    rw [codes_drop_of_le (Nat.le_of_not_lt outside)] at opens
    cases opens
  have behind : codes (bytes.drop (start + 1)) = rest :=
    (List.cons.inj ((codes_drop inside).symm.trans opens)).2
  rw [skipString, if_pos (Nat.le_of_lt inside)]
  split
  · next block =>
      obtain ⟨begins, within⟩ := codes_of_prefix (List.isPrefixOf_iff_prefix.mp block)
      have three : quotes.length = 3 := rfl
      have same : rest = '"' :: '"' :: codes (bytes.drop (start + 3)) :=
        (List.cons.inj (opens.symm.trans begins)).2
      rw [same, stringLength_block, skipBlock_eq]
      congr 1
      omega
  · next single =>
      rw [List.isPrefixOf_iff_prefix, ← codes_prefix_iff, opens] at single
      rw [stringLength_quoted, skipQuoted_eq, behind]
      · congr 1
        omega
      · intro more same
        rw [same] at single
        exact single ⟨more, rfl⟩

/-! ## The bytes of a text -/

theorem word_prefix_iff {word text : List Char} (ascii : codes (encode word) = word) :
    word <+: codes (encode text) ↔ word <+: text := by
  calc word <+: codes (encode text)
    _ ↔ codes (encode word) <+: codes (encode text) := by rw [ascii]
    _ ↔ encode word <+: encode text := codes_prefix_iff
    _ ↔ word <+: text := encode_prefix_iff

/-- Bytes that neither escape nor end anything are part of a quoted string. -/
theorem quotedLength_append_of_plain {middle : List Char}
    (plain : ∀ character ∈ middle, character ≠ '\\' ∧ character ≠ '"' ∧ character ≠ '\n')
    (text : List Char) : quotedLength (middle ++ text) = middle.length + quotedLength text := by
  induction middle with
  | nil => rw [List.nil_append, List.length_nil, Nat.zero_add]
  | cons character middle ih =>
      rw [List.forall_mem_cons] at plain
      obtain ⟨⟨escape, quote, feed⟩, plain⟩ := plain
      rw [List.cons_append, quotedLength_cons (fun same => absurd same escape) quote feed,
        ih plain, List.length_cons]
      omega

theorem blockLength_append_of_plain {middle : List Char}
    (plain : ∀ character ∈ middle, character ≠ '\\' ∧ character ≠ '"')
    (text : List Char) : blockLength (middle ++ text) = middle.length + blockLength text := by
  induction middle with
  | nil => rw [List.nil_append, List.length_nil, Nat.zero_add]
  | cons character middle ih =>
      rw [List.forall_mem_cons] at plain
      obtain ⟨⟨escape, quote⟩, plain⟩ := plain
      rw [List.cons_append, blockLength_other, ih plain, List.length_cons]
      · omega
      · rintro ⟨more, same⟩
        exact escape (List.cons.inj same).1.symm
      · rintro ⟨more, same⟩
        exact quote (List.cons.inj same).1.symm

theorem forall_codes {property : Char → Prop} {bytes : List UInt8} :
    (∀ character ∈ codes bytes, property character) ↔
      ∀ byte ∈ bytes, property (Char.ofUInt8 byte) := List.forall_mem_map

/-- A quoted string of characters and the one of their bytes end at one place. -/
theorem quotedLength_encode (text : List Char) :
    quotedLength (codes (encode text)) = (encode (text.take (quotedLength text))).length := by
  fun_induction quotedLength text with
  | case1 second rest ih =>
      obtain ⟨first, more, bytes, foreign⟩ := exists_encodeChar second
      -- The escape takes the first byte of the character, and the others are skipped one by one.
      have split : codes (encode ('\\' :: second :: rest)) =
          '\\' :: Char.ofUInt8 first :: (codes more ++ codes (encode rest)) := by
        rw [encode_cons, encode_cons, bytes, codes_append, codes_append]
        rfl
      have passed : quotedLength (codes more ++ codes (encode rest)) =
          (codes more).length + quotedLength (codes (encode rest)) := by
        apply quotedLength_append_of_plain
        rw [forall_codes]
        intro byte member
        have large := foreign byte member
        exact ⟨ofUInt8_ne_of_foreign large (by decide), ofUInt8_ne_of_foreign large (by decide),
          ofUInt8_ne_of_foreign large (by decide)⟩
      rw [split, quotedLength, passed, ih, length_codes, List.take_succ_cons, List.take_succ_cons,
        encode_cons, encode_cons, bytes]
      have escape : (String.utf8EncodeChar '\\').length = 1 := rfl
      simp only [List.length_append, List.length_cons, escape]
      omega
  | case2 rest => rfl
  | case3 rest => rfl
  | case4 character rest escape quote feed ih =>
      by_cases ends : character = '\\'
      · subst ends
        cases rest with
        | nil => rfl
        | cons second rest => exact absurd rfl (escape second rest rfl)
      · have plain : ∀ other ∈ codes (String.utf8EncodeChar character),
            other ≠ '\\' ∧ other ≠ '"' ∧ other ≠ '\n' := by
          rw [forall_codes]
          intro byte member
          exact ⟨ofUInt8_ne member ends (by decide), ofUInt8_ne member quote (by decide),
            ofUInt8_ne member feed (by decide)⟩
        rw [encode_cons, codes_append, quotedLength_append_of_plain plain, ih, length_codes,
          List.take_succ_cons, encode_cons, List.length_append]
  | case5 => rfl

theorem blockLength_encode (text : List Char) :
    blockLength (codes (encode text)) = (encode (text.take (blockLength text))).length := by
  fun_induction blockLength text with
  | case1 rest ih =>
      have escape : blockLength (codes (encode ('\\' :: '"' :: '"' :: '"' :: rest))) =
          blockLength (codes (encode rest)) + 4 := rfl
      have length : ∀ text, (encode ('\\' :: '"' :: '"' :: '"' :: text)).length =
          (encode text).length + 4 := fun _ => rfl
      rw [escape, ih]
      simp only [List.take_succ_cons, length]
  | case2 rest => rfl
  | case3 character rest escape quotes ih =>
      obtain ⟨first, more, bytes, foreign⟩ := exists_encodeChar character
      have plain : ∀ other ∈ codes more, other ≠ '\\' ∧ other ≠ '"' := by
        rw [forall_codes]
        intro byte member
        have large := foreign byte member
        exact ⟨ofUInt8_ne_of_foreign large (by decide), ofUInt8_ne_of_foreign large (by decide)⟩
      have split : codes (encode (character :: rest)) =
          Char.ofUInt8 first :: (codes more ++ codes (encode rest)) := by
        rw [encode_cons, bytes, codes_append]
        rfl
      rw [split, blockLength_other, blockLength_append_of_plain plain, ih, length_codes,
        List.take_succ_cons, encode_cons, bytes]
      · simp only [List.length_append, List.length_cons]
        omega
      · rw [← split, word_prefix_iff rfl]
        rintro ⟨others, same⟩
        obtain ⟨rfl, rfl⟩ := List.cons.inj same
        exact escape others rfl rfl
      · rw [← split, word_prefix_iff rfl]
        rintro ⟨others, same⟩
        obtain ⟨rfl, rfl⟩ := List.cons.inj same
        exact quotes others rfl rfl
  | case4 => rfl

theorem stringLength_encode (text : List Char) :
    stringLength (codes (encode text)) = (encode (text.take (stringLength text))).length := by
  by_cases block : ['"', '"'] <+: text
  · rcases block with ⟨more, rfl⟩
    have begins : codes (encode (['"', '"'] ++ more)) = '"' :: '"' :: codes (encode more) := rfl
    have length : ∀ text, (encode ('"' :: '"' :: text)).length = (encode text).length + 2 :=
      fun _ => rfl
    rw [begins, stringLength_block, blockLength_encode]
    simp only [List.cons_append, List.nil_append, stringLength_block, List.take_succ_cons, length]
  · rw [stringLength_quoted, stringLength_quoted, quotedLength_encode]
    · rintro more rfl
      exact block ⟨more, rfl⟩
    · intro more same
      exact block ((word_prefix_iff rfl).mp ⟨more, same.symm⟩)

/-- A property of characters that the bytes of a character have if the character has it. -/
def Bytewise (accepts : Char → Bool) : Prop :=
  ∀ character, ∀ byte ∈ String.utf8EncodeChar character,
    accepts (Char.ofUInt8 byte) = accepts character

theorem takeWhile_encode {accepts : Char → Bool} (bytewise : Bytewise accepts) (text : List Char) :
    ((codes (encode text)).takeWhile accepts).length = (encode (text.takeWhile accepts)).length := by
  induction text with
  | nil => rfl
  | cons character text ih =>
      rw [encode_cons, codes_append, List.takeWhile_cons]
      cases accepted : accepts character with
      | true =>
          have all : ∀ other ∈ codes (String.utf8EncodeChar character), accepts other := by
            rw [forall_codes]
            exact fun byte member => (bytewise character byte member).trans accepted
          rw [List.takeWhile_append_of_pos all, List.length_append, ih, length_codes]
          simp only [if_true, encode_cons, List.length_append]
      | false =>
          obtain ⟨first, more, bytes, _⟩ := exists_encodeChar character
          have refused : ¬accepts (Char.ofUInt8 first) := by
            rw [bytewise character first (bytes ▸ List.mem_cons_self), accepted]
            exact Bool.false_ne_true
          rw [bytes, codes, List.map_cons, List.cons_append, List.takeWhile_cons_of_neg refused]
          rfl

section Text

variable (front : List UInt8) (text : List Char)

/-- After any bytes, a string is skipped in the bytes of a text as it is in the text. -/
theorem skipString_encode :
    skipString (front ++ encode ('"' :: text)) front.length =
      some (front.length + (encode ('"' :: text.take (stringLength text))).length) := by
  have opens : codes ((front ++ encode ('"' :: text)).drop front.length) =
      '"' :: codes (encode text) := by
    rw [List.drop_left]
    rfl
  have length : ∀ text, (encode ('"' :: text)).length = 1 + (encode text).length := by
    intro text
    rw [Nat.add_comm]
    rfl
  rw [skipString_eq opens, stringLength_encode, length, Nat.add_assoc]

theorem skipWhile_encode {accepts : Char → Bool} (bytewise : Bytewise accepts) :
    skipWhile accepts (front ++ encode text) front.length =
      front.length + (encode (text.takeWhile accepts)).length := by
  rw [skipWhile_eq, List.drop_left, takeWhile_encode bytewise]

end Text

/-! ## String literals -/

/-- A string that is well formed is one lexeme, unless it is empty and a third quote follows. -/
theorem stringLength_of_reads {spacing : Spacing} {content rest : List Char}
    (alone : (rule .string).Reads grammar spacing ('"' :: content) (some []))
    (certain : ¬Doubtful ('"' :: content) rest) :
    stringLength (content ++ rest) = content.length := by
  rcases reads_string_iff.mp alone with ⟨inside, same, closing⟩ | ⟨_, inside, same, quoted⟩
  · obtain rfl : content = '"' :: '"' :: inside := (List.cons.inj same).2
    have whole : (inside ++ rest).drop (blockLength (inside ++ rest)) = rest :=
      drop_blockLength (blockRest_append closing rest)
    have within := length_blockLength_le (inside ++ rest)
    have lengths := congrArg List.length whole
    rw [List.length_drop] at lengths
    rw [List.length_append] at lengths within
    rw [List.cons_append, List.cons_append, stringLength_block, List.length_cons, List.length_cons]
    omega
  · obtain rfl : content = inside := (List.cons.inj same).2
    have stays : Quoted (content ++ []) [] := by
      rw [List.append_nil]
      exact quoted
    have whole := drop_quotedLength (stays.replace rest)
    have within := length_quoted_le (content ++ rest)
    have lengths := congrArg List.length whole
    rw [List.length_drop] at lengths
    rw [List.length_append] at lengths within
    rw [stringLength_quoted (quoted.not_block certain)]
    omega

/--
After any bytes and before any text, a string that the grammar accepts is skipped exactly, and it
is one lexeme of the text. The exception are two quotes before a third one, which may begin a
block string.
-/
theorem skipString_literal (front : List UInt8) (literal rest : List Char)
    (wellFormed : grammar.rest? .string literal = some []) (certain : ¬Doubtful literal rest) :
    skipString (front ++ encode literal ++ encode rest) front.length =
        some (front.length + (encode literal).length) ∧
      lexemes (literal ++ rest) = literal :: lexemes rest := by
  have alone := orderly.reads_iff.mpr wellFormed
  rcases string_head alone with ⟨content, rfl⟩
  have length := stringLength_of_reads alone certain
  have inside : (content ++ rest).take (stringLength (content ++ rest)) = content := by
    rw [length, List.take_left]
  constructor
  · have skipped := skipString_encode front (content ++ rest)
    rw [inside, ← List.cons_append, encode_append, ← List.append_assoc] at skipped
    exact skipped
  · have tail : tailLength '"' (content ++ rest) = stringLength (content ++ rest) := rfl
    rw [List.cons_append, lexemes, tail, inside, length, List.drop_left]

/--
A block string with three escaped quotes, two quotes, a backslash before a line feed and a
character of three bytes.
-/
def blockLiteral : List Char := "\"\"\"\\\"\"\" \"\" \\\n→\"\"\"".toList

/-- Behind a byte that begins no character, and before another quote, the string ends where it should. -/
theorem blockLiteral_skipped :
    grammar.rest? .string blockLiteral = some [] ∧
      skipString ([0xff] ++ encode blockLiteral ++ encode ['"']) 1 = some 20 ∧
      lexemes (blockLiteral ++ ['"']) = blockLiteral :: lexemes ['"'] := by
  have wellFormed : grammar.rest? .string blockLiteral = some [] := by decide +kernel
  have certain : ¬Doubtful blockLiteral ['"'] := by
    rintro ⟨same, _⟩
    exact absurd same (by decide +kernel)
  have skipped := skipString_literal [0xff] blockLiteral ['"'] wellFormed certain
  have length : (encode blockLiteral).length = 19 := by decide +kernel
  rw [length] at skipped
  exact ⟨wellFormed, skipped⟩

end PreviewLint.Bytes
