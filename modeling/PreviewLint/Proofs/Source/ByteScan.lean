import PreviewLint.Proofs.GraphQL.Endings
import PreviewLint.Proofs.Source.Bytes

/-!
# Sections in the bytes of a text

The sections of a text can be found without cutting it into lexemes first: a scanner keeps an
index into the bytes of the text, looks at one byte, moves on, and takes down the index wherever a
section begins. The text is then sliced at the indices that were taken down. Such a scanner reads
single bytes of characters that have several, and a slice exists only between two boundaries of
characters that are in order. This file proves that every slice exists, on every text, and that
the slices are the sections of the outline.

What remains of the text behind an index (`Remains`) ties the two views together: at a boundary
the scanner does to its state what the next lexeme does to the scan of the outline, and comes to
the boundary behind this lexeme. A character of several bytes is a lexeme of its own, and the
scanner takes one step for each byte of it, all of which have the same effect.
-/

namespace PreviewLint.ByteScan

open Outline GraphQL Bytes

/-- The bytes of a text. -/
def bytesOf (text : String) : List UInt8 := text.toByteArray.data.toList

/-- The part of a text between two indices, if they are in order and boundaries of characters. -/
def slice? (text : String) (start stop : Nat) : Option String :=
  if inside : String.Pos.Raw.IsValid text ⟨start⟩ ∧ String.Pos.Raw.IsValid text ⟨stop⟩ then
    if start ≤ stop then
      some (String.extract (text.pos ⟨start⟩ inside.1) (text.pos ⟨stop⟩ inside.2))
    else none
  else none

/-- The place where a section begins, and its kind. -/
structure Segment where
  start : Nat
  kind : Kind
  deriving DecidableEq, Repr

/-- The state of the scanner: its index, the state of the scan, and the segments, last one first. -/
structure State where
  index : Nat := 0
  scan : Scan := {}
  segments : List Segment := []
  deriving DecidableEq, Repr

namespace State

/-- Moves to an index. If a section has begun, it began at the index before. -/
def advance (state : State) (stop : Nat) (step : Step) : State :=
  match step.begins, step.scan.heading with
  | true, some heading => ⟨stop, step.scan, ⟨state.index, heading.kind⟩ :: state.segments⟩
  | _, _ => ⟨stop, step.scan, state.segments⟩

/-- One step of the scanner. There is none if it reads behind the text or slices it badly. -/
def next? (text : String) (state : State) : Option State :=
  let bytes := bytesOf text
  match bytes[state.index]? with
  | none => none
  | some byte =>
    let first := Char.ofUInt8 byte
    if first == '#' then
      some (state.advance (skipWhile (· != '\n') bytes state.index) state.scan.stay)
    else if first == '"' then
      (skipString bytes state.index).map fun stop => state.advance stop state.scan.onString
    else if first == '{' || first == '(' || first == '[' then
      some (state.advance (state.index + 1) (state.scan.onOpening (first == '{')))
    else if first == '}' || first == ')' || first == ']' then
      some (state.advance (state.index + 1) (state.scan.onClosing (first == '}')))
    else if isNameStart first then
      let stop := skipWhile isNamePart bytes state.index
      if state.scan.depth = 0 then
        (slice? text state.index stop).map fun name => state.advance stop (state.scan.onName name)
      else some (state.advance stop state.scan.stay)
    else some (state.advance (state.index + 1) (state.scan.onMark first))

end State

/-! ## Progress -/

/-- A string that begins at a quote ends behind the quote and within the bytes. -/
theorem exists_skipString {bytes : List UInt8} {start : Nat}
    (quote : bytes[start]?.map Char.ofUInt8 = some '"') :
    ∃ stop, skipString bytes start = some stop ∧ start < stop ∧ stop ≤ bytes.length := by
  obtain ⟨byte, found, _⟩ := Option.map_eq_some_iff.mp quote
  have inside : start < bytes.length := (List.getElem?_eq_some_iff.mp found).1
  rw [skipString, if_pos (Nat.le_of_lt inside)]
  split
  · next block =>
      have long := (List.isPrefixOf_iff_prefix.mp block).length_le
      have three : quotes.length = 3 := rfl
      have bounds := skipBlock_bounds bytes (start + 3)
      rw [List.length_drop] at long
      exact ⟨_, rfl, by omega, bounds.2⟩
  · have bounds := skipQuoted_bounds bytes (start + 1)
    exact ⟨_, rfl, by omega, bounds.2⟩

theorem lt_skipWhile {accepts : Char → Bool} {bytes : List UInt8} {index : Nat} {byte : UInt8}
    (found : bytes[index]? = some byte) (accepted : accepts (Char.ofUInt8 byte)) :
    index < skipWhile accepts bytes index := by
  obtain ⟨inside, rfl⟩ := List.getElem?_eq_some_iff.mp found
  rw [skipWhile_eq, codes_drop inside, List.takeWhile_cons_of_pos accepted, List.length_cons]
  omega

namespace State

@[simp]
theorem index_advance (state : State) (stop : Nat) (step : Step) :
    (state.advance stop step).index = stop := by
  rw [advance]
  split <;> rfl

@[simp]
theorem scan_advance (state : State) (stop : Nat) (step : Step) :
    (state.advance stop step).scan = step.scan := by
  rw [advance]
  split <;> rfl

theorem segments_of_stays {state : State} {stop : Nat} {step : Step} {scan : Scan}
    (stays : Step.Stays scan step) : (state.advance stop step).segments = state.segments := by
  simp only [advance, stays.1]

theorem segments_of_enters {state : State} {stop : Nat} {step : Step} {heading : Heading}
    (begins : step.begins) (found : step.scan.heading = some heading) :
    (state.advance stop step).segments = ⟨state.index, heading.kind⟩ :: state.segments := by
  simp only [advance, begins, found]

theorem lt_length_of_next {text : String} {state following : State}
    (moves : state.next? text = some following) : state.index < (bytesOf text).length := by
  rw [next?] at moves
  cases found : (bytesOf text)[state.index]? with
  | none =>
      rw [found] at moves
      cases moves
  | some byte => exact (List.getElem?_eq_some_iff.mp found).1

theorem lt_of_next {text : String} {state following : State}
    (moves : state.next? text = some following) : state.index < following.index := by
  rw [next?] at moves
  cases found : (bytesOf text)[state.index]? with
  | none =>
      rw [found] at moves
      cases moves
  | some byte =>
      simp only [found] at moves
      split at moves
      · next mark =>
          cases moves
          rw [index_advance]
          exact lt_skipWhile found (by rw [beq_iff_eq.mp mark]; rfl)
      split at moves
      · next quote =>
          have opens : (bytesOf text)[state.index]?.map Char.ofUInt8 = some '"' := by
            rw [found, Option.map_some, beq_iff_eq.mp quote]
          obtain ⟨stop, skipped, behind, _⟩ := exists_skipString opens
          rw [skipped] at moves
          cases moves
          rw [index_advance]
          exact behind
      split at moves
      · cases moves
        rw [index_advance]
        exact Nat.lt_succ_self _
      split at moves
      · cases moves
        rw [index_advance]
        exact Nat.lt_succ_self _
      split at moves
      · next starts =>
          have behind := lt_skipWhile found (isNamePart_of_isNameStart starts)
          split at moves
          · obtain ⟨name, _, rfl⟩ := Option.map_eq_some_iff.mp moves
            rw [index_advance]
            exact behind
          · cases moves
            rw [index_advance]
            exact behind
      · cases moves
        rw [index_advance]
        exact Nat.lt_succ_self _

end State

/-- The segments that are found from a state on, in the order of the text. -/
def scanFrom? (text : String) (state : State) : Option (List Segment) :=
  if state.index < (bytesOf text).length then
    match moves : state.next? text with
    | none => none
    | some following =>
      have := State.lt_of_next moves
      scanFrom? text following
  else some state.segments.reverse
termination_by (bytesOf text).length - state.index

/-- The segments of a text. -/
def scan? (text : String) : Option (List Segment) := scanFrom? text {}

theorem scanFrom?_next {text : String} {state following : State}
    (moves : state.next? text = some following) :
    scanFrom? text state = scanFrom? text following := by
  rw [scanFrom?, if_pos (State.lt_length_of_next moves)]
  split
  · next stuck =>
      rw [stuck] at moves
      cases moves
  · next other same =>
      rw [moves] at same
      cases same
      rfl

/-- What a half of the text takes over from some segments, each of which ends where the next begins. -/
def keep? (text : String) (kind : Kind) : List Segment → Option (List Char)
  | [] => some []
  | segment :: others => do
    let stop := (others.head?.map Segment.start).getD (bytesOf text).length
    let part ← slice? text segment.start stop
    let kept ← keep? text kind others
    return Section.kept kind ⟨segment.kind, part.toList⟩ ++ kept

/-- The half of a text for one kind: what precedes the first segment, and what is kept of them. -/
def half? (text : String) (segments : List Segment) (kind : Kind) : Option (List Char) := do
  let leading ← slice? text 0 ((segments.head?.map Segment.start).getD (bytesOf text).length)
  let kept ← keep? text kind segments
  return leading.toList ++ kept

/-- The two halves of a text that has segments of both kinds. -/
def split? (text : String) : Option (Option (List Char × List Char)) := do
  let segments ← scan? text
  if segments.any (·.kind == .executable) && segments.any (·.kind == .typeSystem) then
    let executable ← half? text segments .executable
    let typeSystem ← half? text segments .typeSystem
    return some (executable, typeSystem)
  else return none

/-! ## Boundaries -/

theorem bytesOf_eq (text : String) : bytesOf text = encode text.toList := by
  rw [bytesOf, ← String.utf8Encode_toList, List.utf8Encode, List.data_toByteArray]
  rfl

theorem size_ofList (text : List Char) :
    (String.ofList text).toByteArray.size = (encode text).length := by
  rw [String.toByteArray_ofList, List.utf8Encode, List.size_toByteArray]
  rfl

/-- The characters that remain of a text behind an index, which is a boundary of characters. -/
def Remains (text : String) (index : Nat) (rest : List Char) : Prop :=
  ∃ before, text.toList = before ++ rest ∧ index = (encode before).length

theorem getElem?_front {bytes front back : List UInt8} {byte : UInt8}
    (whole : bytes = front ++ byte :: back) : bytes[front.length]? = some byte := by
  rw [whole, List.getElem?_append_right (Nat.le_refl _), Nat.sub_self]
  rfl

namespace Remains

variable {text : String} {index : Nat} {middle rest : List Char}

theorem drop (remains : Remains text index (middle ++ rest)) :
    Remains text (index + (encode middle).length) rest := by
  rcases remains with ⟨before, whole, rfl⟩
  refine ⟨before ++ middle, ?_, ?_⟩
  · rw [whole, List.append_assoc]
  · rw [encode_append, List.length_append]

theorem bytes (remains : Remains text index rest) :
    ∃ front, bytesOf text = front ++ encode rest ∧ front.length = index := by
  rcases remains with ⟨before, whole, rfl⟩
  refine ⟨encode before, ?_, rfl⟩
  rw [bytesOf_eq, whole, encode_append]

theorem add_length (remains : Remains text index rest) :
    index + (encode rest).length = (bytesOf text).length := by
  rcases remains.bytes with ⟨front, bytes, rfl⟩
  rw [bytes, List.length_append]

theorem isValid (remains : Remains text index rest) : String.Pos.Raw.IsValid text ⟨index⟩ := by
  rcases remains with ⟨before, whole, rfl⟩
  rw [String.Pos.Raw.isValid_iff_exists_append]
  refine ⟨String.ofList before, String.ofList rest, ?_, ?_⟩
  · rw [← String.ofList_append, ← whole, String.ofList_toList]
  · rw [String.rawEndPos, String.utf8ByteSize, size_ofList]

theorem slice?_add (remains : Remains text index (middle ++ rest)) :
    slice? text index (index + (encode middle).length) = some (String.ofList middle) := by
  have first := remains.isValid
  have last := remains.drop.isValid
  rw [slice?, dif_pos ⟨first, last⟩, if_pos (Nat.le_add_right _ _)]
  rcases remains with ⟨before, whole, rfl⟩
  have whole : text.toByteArray = (String.ofList before).toByteArray ++
      ((String.ofList middle).toByteArray ++ (String.ofList rest).toByteArray) := by
    rw [← String.toByteArray_append, ← String.toByteArray_append, ← String.ofList_append,
      ← String.ofList_append, ← whole, String.ofList_toList]
  congr 1
  apply String.toByteArray_inj.mp
  rw [String.toByteArray_extract, String.offset_pos, String.offset_pos, whole, ← size_ofList,
    ← size_ofList]
  generalize (String.ofList before).toByteArray = front
  generalize (String.ofList middle).toByteArray = part
  calc (front ++ (part ++ (String.ofList rest).toByteArray)).extract front.size
        (front.size + part.size)
    _ = (front ++ (part ++ (String.ofList rest).toByteArray)).extract (front.size + 0)
        (front.size + part.size) := by rw [Nat.add_zero]
    _ = (part ++ (String.ofList rest).toByteArray).extract 0 part.size :=
      ByteArray.extract_append_size_add
    _ = part := ByteArray.extract_append_eq_left rfl

theorem getElem? {first : Char} (remains : Remains text index (first :: rest)) {byte : UInt8}
    {more : List UInt8} (bytes : String.utf8EncodeChar first = byte :: more) :
    (bytesOf text)[index]? = some byte := by
  rcases remains.bytes with ⟨front, whole, rfl⟩
  rw [encode_cons, bytes] at whole
  exact getElem?_front whole

end Remains

/-! ## Characters of several bytes -/

theorem isNamePart_of_foreign {character : Char} (foreign : 128 ≤ character.toNat) :
    isNamePart character = false := by
  have ascii : nameParts.all (·.toNat < 128) := by decide
  rw [← Bool.not_eq_true]
  intro part
  have small := of_decide_eq_true (List.all_eq_true.mp ascii character (mem_nameParts part))
  omega

theorem bytewise_of_foreign {accepts : Char → Bool} {answer : Bool}
    (constant : ∀ character, 128 ≤ character.toNat → accepts character = answer) :
    Bytewise accepts := by
  intro character byte member
  rcases encodeChar_cases character with ⟨only, bytes, code⟩ | ⟨large, foreign⟩
  · rw [bytes, List.mem_singleton] at member
    rw [member, code]
  · rw [constant character large]
    exact constant _ (foreign byte member)

theorem beq_of_foreign {character : Char} (foreign : 128 ≤ character.toNat) {ascii : Char}
    (small : ascii.toNat < 128) : (character == ascii) = false := by
  rw [beq_eq_false_iff_ne]
  rintro rfl
  omega

/-- The scan after a character outside of ASCII. -/
def settled (scan : Scan) : Scan :=
  if scan.depth = 0 then scan.amend Heading.withoutName else scan

theorem settled_settled (scan : Scan) : settled (settled scan) = settled scan := by
  by_cases outside : scan.depth = 0
  · have once : settled scan = scan.amend Heading.withoutName := if_pos outside
    have twice : settled (scan.amend Heading.withoutName) =
        (scan.amend Heading.withoutName).amend Heading.withoutName := if_pos outside
    rw [once, twice, Scan.amend, Scan.amend, Option.map_map]
    rfl
  · have once : settled scan = scan := if_neg outside
    rw [once, once]

theorem onMark_of_foreign (scan : Scan) {character : Char} (foreign : 128 ≤ character.toNat) :
    scan.onMark character = (settled scan).stay := by
  have gap : Scan.isGap character = false := by
    simp (disch := decide) only [Scan.isGap, beq_of_foreign foreign, Bool.or_self]
  rw [Scan.onMark, gap, settled]
  by_cases outside : scan.depth = 0
  · simp only [outside, decide_true, Bool.not_false, Bool.and_self, if_true]
  · simp only [outside, decide_false, Bool.false_and, Bool.false_eq_true, if_false]

theorem isNameStart_of_foreign {character : Char} (foreign : 128 ≤ character.toNat) :
    isNameStart character = false :=
  (Bool.or_eq_false_iff.mp (isNamePart_of_foreign foreign)).1

theorem tailLength_of_foreign {first : Char} (foreign : 128 ≤ first.toNat) (rest : List Char) :
    tailLength first rest = 0 := by
  simp (disch := decide) only [tailLength, beq_of_foreign foreign, isNameStart_of_foreign foreign,
    Bool.false_eq_true, if_false]

theorem step_of_foreign (scan : Scan) {first : Char} (foreign : 128 ≤ first.toNat)
    (more : List Char) : scan.step (first :: more) = (settled scan).stay := by
  simp (disch := decide) only [Scan.step, beq_of_foreign foreign, isNameStart_of_foreign foreign,
    Bool.or_self, Bool.false_eq_true, if_false]
  exact onMark_of_foreign scan foreign

theorem next?_of_foreign {text : String} {state : State} {byte : UInt8}
    (found : (bytesOf text)[state.index]? = some byte) (foreign : 128 ≤ byte.toNat) :
    state.next? text = some ⟨state.index + 1, settled state.scan, state.segments⟩ := by
  have large : 128 ≤ (Char.ofUInt8 byte).toNat := foreign
  simp (disch := decide) only [State.next?, found, beq_of_foreign large,
    isNameStart_of_foreign large, Bool.or_self, Bool.false_eq_true, if_false,
    onMark_of_foreign state.scan large]
  rfl

/-- Of several bytes outside of ASCII, the first one settles the scan; the others change nothing. -/
theorem scanFrom?_of_foreign {text : String} {front marks back : List UInt8} {byte : UInt8}
    (scan : Scan) (segments : List Segment)
    (bytes : bytesOf text = front ++ (byte :: marks ++ back))
    (foreign : ∀ mark ∈ byte :: marks, 128 ≤ mark.toNat) :
    scanFrom? text ⟨front.length, scan, segments⟩ =
      scanFrom? text ⟨front.length + (byte :: marks).length, settled scan, segments⟩ := by
  induction marks generalizing front byte scan with
  | nil =>
      rw [List.forall_mem_cons] at foreign
      exact scanFrom?_next (next?_of_foreign (getElem?_front bytes) foreign.1)
  | cons other marks ih =>
      rw [List.forall_mem_cons] at foreign
      have moves : State.next? text ⟨front.length, scan, segments⟩ =
          some ⟨front.length + 1, settled scan, segments⟩ :=
        next?_of_foreign (getElem?_front bytes) foreign.1
      have shifted : bytesOf text = (front ++ [byte]) ++ (other :: marks ++ back) := by
        rw [bytes, List.append_assoc]
        rfl
      have length : (front ++ [byte]).length = front.length + 1 := List.length_append
      -- The next byte settles the scan once more, which does nothing.
      have later := ih (settled scan) shifted foreign.2
      rw [length, settled_settled] at later
      rw [scanFrom?_next moves, later, List.length_cons (a := byte), Nat.add_assoc, Nat.add_comm 1]

/-! ## One lexeme -/

section Lexeme

variable {text : String} {state : State} {first : Char} {rest : List Char}

theorem lexeme_append (first : Char) (rest : List Char) :
    (first :: rest.take (tailLength first rest)) ++ rest.drop (tailLength first rest) =
      first :: rest := by
  rw [List.cons_append, List.take_append_drop]

theorem skipWhile_lexeme {index : Nat} {accepts : Char → Bool} (bytewise : Bytewise accepts)
    (remains : Remains text index (first :: rest)) (accepted : accepts first)
    (size : tailLength first rest = (rest.takeWhile accepts).length) :
    skipWhile accepts (bytesOf text) index =
      index + (encode (first :: rest.take (tailLength first rest))).length := by
  rcases remains.bytes with ⟨front, whole, rfl⟩
  rw [whole, skipWhile_encode front (first :: rest) bytewise, List.takeWhile_cons_of_pos accepted,
    size, take_takeWhile]

/-- An ASCII character begins a lexeme that takes one step. -/
theorem next?_of_ascii (remains : Remains text state.index (first :: rest)) {byte : UInt8}
    (bytes : String.utf8EncodeChar first = [byte]) (code : Char.ofUInt8 byte = first) :
    state.next? text = some (state.advance
      (state.index + (encode (first :: rest.take (tailLength first rest))).length)
      (state.scan.step (first :: rest.take (tailLength first rest)))) := by
  have found := remains.getElem? bytes
  simp only [State.next?, found, code]
  rcases tailLength_cases first with ⟨rfl, size⟩ | ⟨rfl, size⟩ | ⟨starts, size⟩ | ⟨single, size⟩
  -- A comment, a string, a name, and a character that is a lexeme of its own.
  · have comment : Bytewise (· != '\n') :=
      bytewise_of_foreign fun character foreign => by
        rw [bne, beq_of_foreign foreign (by decide), Bool.not_false]
    rw [skipWhile_lexeme comment remains rfl (size rest)]
    rfl
  · rcases remains.bytes with ⟨front, whole, start⟩
    rw [size, whole, ← start, skipString_encode]
    rfl
  · have name : Bytewise isNamePart := bytewise_of_foreign fun _ => isNamePart_of_foreign
    have plain := isPlain_of_isNamePart (isNamePart_of_isNameStart starts)
    rw [skipWhile_lexeme name remains (isNamePart_of_isNameStart starts) (size rest)]
    rw [← lexeme_append] at remains
    simp only [isPlain, isOpening, isClosing, Bool.and_eq_true, Bool.not_eq_true', bne_iff_ne] at plain
    obtain ⟨⟨⟨unopened, unclosed⟩, unquoted⟩, unmarked⟩ := plain
    simp only [Scan.step, beq_eq_false_iff_ne.mpr unmarked, beq_eq_false_iff_ne.mpr unquoted,
      unopened, unclosed, starts, Bool.false_eq_true, if_false, if_true, remains.slice?_add]
    split
    · rfl
    · next inside => rw [Scan.onName, if_neg inside]
  · have one : (encode [first]).length = 1 := by
      rw [encode_cons, bytes]
      rfl
    rw [size, List.take_zero, one]
    simp only [Scan.step, beq_eq_false_iff_ne.mpr single.unmarked,
      beq_eq_false_iff_ne.mpr single.unquoted, single.unnamed, Bool.false_eq_true, if_false]
    split
    · rfl
    · split <;> rfl

/-- From a boundary on, the scanner comes to the boundary behind the next lexeme. -/
theorem scanFrom?_lexeme (remains : Remains text state.index (first :: rest)) :
    scanFrom? text state = scanFrom? text (state.advance
      (state.index + (encode (first :: rest.take (tailLength first rest))).length)
      (state.scan.step (first :: rest.take (tailLength first rest)))) := by
  rcases encodeChar_cases first with ⟨byte, bytes, code⟩ | ⟨large, foreign⟩
  · exact scanFrom?_next (next?_of_ascii remains bytes code)
  · obtain ⟨byte, more, bytes, _⟩ := exists_encodeChar first
    rw [bytes] at foreign
    rcases remains.bytes with ⟨front, whole, start⟩
    rw [encode_cons, bytes] at whole
    have length : (encode [first]).length = (byte :: more).length := by
      rw [encode_cons, bytes]
      exact congrArg List.length (List.append_nil _)
    have passed := scanFrom?_of_foreign state.scan state.segments whole foreign
    rw [start] at passed
    rw [tailLength_of_foreign large, List.take_zero, step_of_foreign _ large, length]
    exact passed

end Lexeme

/-! ## A whole text -/

/-- The places of some sections that follow each other from an index on. -/
def segmentsFrom (index : Nat) : List Section → List Segment
  | [] => []
  | part :: parts => ⟨index, part.kind⟩ :: segmentsFrom (index + (encode part.text).length) parts

/-- The scanner takes down where the sections of what remains begin. -/
theorem scanFrom?_eq {text : String} {state : State} {rest : List Char}
    (remains : Remains text state.index rest) :
    scanFrom? text state = some (state.segments.reverse ++
      segmentsFrom (state.index + (encode (sectionsFrom state.scan (lexemes rest)).1).length)
        (sectionsFrom state.scan (lexemes rest)).2) := by
  fun_induction lexemes rest generalizing state with
  | case1 =>
      have final : state.index = (bytesOf text).length := remains.add_length
      rw [scanFrom?, if_neg (by omega), sectionsFrom, segmentsFrom, List.append_nil]
  | case2 first rest ih =>
      rw [scanFrom?_lexeme remains]
      rw [← lexeme_append] at remains
      generalize first :: rest.take (tailLength first rest) = lexeme at remains ⊢
      have behind : Remains text (state.advance (state.index + (encode lexeme).length)
          (state.scan.step lexeme)).index (rest.drop (tailLength first rest)) := by
        rw [State.index_advance]
        exact remains.drop
      rw [ih behind, State.index_advance, State.scan_advance]
      rcases state.scan.step_cases lexeme with stays | ⟨⟨begins, heading, found⟩, _⟩
      · rw [sectionsFrom_of_stays stays, State.segments_of_stays stays, encode_append,
          List.length_append, Nat.add_assoc]
      · rw [sectionsFrom_of_enters begins found, State.segments_of_enters begins found,
          List.reverse_cons, List.append_assoc]
        have empty : (encode []).length = 0 := rfl
        simp only [segmentsFrom, encode_append, List.length_append, empty, Nat.add_zero,
          Nat.add_assoc, List.cons_append, List.nil_append]

theorem scan?_eq (text : String) :
    scan? text = some (segmentsFrom (encode (ofText text.toList).leading).length
      (ofText text.toList).sections) := by
  have start : Remains text ({} : State).index text.toList := ⟨[], rfl, rfl⟩
  rw [scan?, scanFrom?_eq start, Nat.zero_add]
  rfl

/-! ## Slices -/

section Slices

variable {text : String} {index : Nat} {parts : List Section}

theorem any_segmentsFrom (index : Nat) (parts : List Section) (kind : Kind) :
    (segmentsFrom index parts).any (·.kind == kind) = parts.any (·.kind == kind) := by
  induction parts generalizing index with
  | nil => rfl
  | cons part parts ih => rw [segmentsFrom, List.any_cons, List.any_cons, ih]

/-- The first of some segments begins where what remains of the text begins. -/
theorem start_segmentsFrom (remains : Remains text index (parts.flatMap Section.text)) :
    ((segmentsFrom index parts).head?.map Segment.start).getD (bytesOf text).length = index := by
  cases parts with
  | nil => exact remains.add_length.symm
  | cons part parts => rfl

theorem encode_pos {part : List Char} (nonempty : part ≠ []) : 0 < (encode part).length := by
  cases part with
  | nil => exact absurd rfl nonempty
  | cons first more =>
      rcases exists_encodeChar first with ⟨byte, others, bytes, _⟩
      rw [encode_cons, bytes]
      exact Nat.succ_pos _

/-- Segments of sections that are not empty begin within the text, at boundaries. -/
theorem segmentsFrom_inside (nonempty : ∀ part ∈ parts, part.text ≠ [])
    (remains : Remains text index (parts.flatMap Section.text)) :
    ∀ segment ∈ segmentsFrom index parts, index ≤ segment.start ∧
      segment.start < (bytesOf text).length ∧ String.Pos.Raw.IsValid text ⟨segment.start⟩ := by
  induction parts generalizing index with
  | nil => exact List.forall_mem_nil _
  | cons part parts ih =>
      rw [List.forall_mem_cons] at nonempty
      rw [List.flatMap_cons] at remains
      have long := encode_pos nonempty.1
      have whole := remains.add_length
      rw [encode_append, List.length_append] at whole
      rw [segmentsFrom, List.forall_mem_cons]
      have inside : index < (bytesOf text).length := by omega
      refine ⟨⟨Nat.le_refl _, inside, remains.isValid⟩, fun segment member => ?_⟩
      obtain ⟨behind, inside, valid⟩ := ih nonempty.2 remains.drop segment member
      exact ⟨by omega, inside, valid⟩

theorem segmentsFrom_increasing (nonempty : ∀ part ∈ parts, part.text ≠ [])
    (remains : Remains text index (parts.flatMap Section.text)) :
    ((segmentsFrom index parts).map Segment.start).Pairwise (· < ·) := by
  induction parts generalizing index with
  | nil => exact .nil
  | cons part parts ih =>
      rw [List.forall_mem_cons] at nonempty
      rw [List.flatMap_cons] at remains
      have long := encode_pos nonempty.1
      rw [segmentsFrom, List.map_cons, List.pairwise_cons, List.forall_mem_map]
      refine ⟨fun segment member => ?_, ih nonempty.2 remains.drop⟩
      obtain ⟨behind, _⟩ := segmentsFrom_inside nonempty.2 remains.drop segment member
      dsimp only
      omega

/-- The slices between the segments are the sections. -/
theorem keep?_segmentsFrom (kind : Kind)
    (remains : Remains text index (parts.flatMap Section.text)) :
    keep? text kind (segmentsFrom index parts) = some (parts.flatMap (Section.kept kind)) := by
  induction parts generalizing index with
  | nil => rfl
  | cons part parts ih =>
      rw [List.flatMap_cons] at remains
      simp only [segmentsFrom, keep?, start_segmentsFrom remains.drop, remains.slice?_add,
        ih remains.drop, Option.bind_eq_bind, Option.bind_some, String.toList_ofList]
      rfl

theorem remains_sections (text : String) :
    Remains text (encode (ofText text.toList).leading).length
      ((ofText text.toList).sections.flatMap Section.text) :=
  ⟨_, (text_ofText text.toList).symm, rfl⟩

theorem half?_eq (text : String) (kind : Kind) :
    half? text (segmentsFrom (encode (ofText text.toList).leading).length
      (ofText text.toList).sections) kind = some ((ofText text.toList).half kind) := by
  have start : Remains text 0 ((ofText text.toList).leading ++
      (ofText text.toList).sections.flatMap Section.text) := ⟨[], (text_ofText _).symm, rfl⟩
  have leading := start.slice?_add
  have behind := remains_sections text
  rw [Nat.zero_add] at leading
  simp only [half?, start_segmentsFrom behind, leading, keep?_segmentsFrom kind behind,
    Option.bind_eq_bind, Option.bind_some, String.toList_ofList]
  rfl

end Slices

theorem split?_eq (text : String) :
    split? text = some (
      let outline := ofText text.toList
      if outline.has .executable && outline.has .typeSystem then
        some (outline.half .executable, outline.half .typeSystem)
      else none) := by
  have kinds : ∀ kind, (segmentsFrom (encode (ofText text.toList).leading).length
      (ofText text.toList).sections).any (·.kind == kind) = (ofText text.toList).has kind :=
    any_segmentsFrom _ _
  simp only [split?, scan?_eq, Option.bind_eq_bind, Option.bind_some, kinds, half?_eq]
  split <;> rfl

/--
On every text each step of the scanner moves on, a string that it skips ends behind its quote and
within the bytes, the segments are found and begin within the text, in order and at boundaries of
characters, and every slice that the two halves are made of exists: they are those of the outline.
-/
theorem scan_safe (text : String) :
    (∀ state following : State, state.next? text = some following →
      state.index < following.index) ∧
    (∀ (bytes : List UInt8) (start : Nat), bytes[start]?.map Char.ofUInt8 = some '"' →
      ∃ stop, skipString bytes start = some stop ∧ start < stop ∧ stop ≤ bytes.length) ∧
    (∃ segments, scan? text = some segments ∧ (segments.map Segment.start).Pairwise (· < ·) ∧
      ∀ segment ∈ segments, segment.start < (bytesOf text).length ∧
        String.Pos.Raw.IsValid text ⟨segment.start⟩) ∧
    split? text = some (
      let outline := ofText text.toList
      if outline.has .executable && outline.has .typeSystem then
        some (outline.half .executable, outline.half .typeSystem)
      else none) := by
  refine ⟨fun _ _ => State.lt_of_next, fun _ _ => exists_skipString, ?_, ?_⟩
  · have nonempty : ∀ part ∈ (ofText text.toList).sections, part.text ≠ [] := by
      intro part member
      obtain ⟨first, more, same, _⟩ := solid_of_mem_sections member
      rw [same]
      exact List.cons_ne_nil first more
    have remains := remains_sections text
    exact ⟨_, scan?_eq text, segmentsFrom_increasing nonempty remains, fun segment member =>
      (segmentsFrom_inside nonempty remains segment member).2⟩
  · exact split?_eq text

/--
A text whose last brackets are not closed, and whose last string has no end but a backslash before
a character of three bytes.
-/
def brokenText : String := "type T \x7ba:Int\x7d \x7bb(c:\"\\→"

/-- It takes a first step, its last string is skipped, and it is split at its second brace. -/
theorem brokenText_split :
    (∃ following, State.next? brokenText {} = some following ∧ 0 < following.index) ∧
    (∃ stop, skipString (bytesOf brokenText) 20 = some stop ∧ 20 < stop ∧
      stop ≤ (bytesOf brokenText).length) ∧
    split? brokenText = some (some
      ("               \x7bb(c:\"\\→".toList, "type T \x7ba:Int\x7d         ".toList)) := by
  obtain ⟨moves, skips, _, splits⟩ := scan_safe brokenText
  have begins : (State.next? brokenText {}).isSome := by decide +kernel
  have quote : (bytesOf brokenText)[20]?.map Char.ofUInt8 = some '"' := by decide +kernel
  obtain ⟨following, found⟩ := Option.isSome_iff_exists.mp begins
  refine ⟨⟨following, found, moves _ _ found⟩, skips _ _ quote, ?_⟩
  rw [splits]
  decide +kernel

end PreviewLint.ByteScan
