import PreviewLint.Proofs.Json.Reading
import PreviewLint.Variables

/-!
# Assembling the variables of a run

Variables come from a file, from a text and from a flag. This file says what they are to be
without reading or building them: `FileHolds` and `TextHolds` relate a source to the object that is
written in it, `FileRefused` and `TextRefused` to the reason why there is none, and `Assembled`
relates the objects and the flag to the variables. Each name has the value of the last source that
has it, in the place that the first source gives it.

Loading meets this exactly. It succeeds if and only if both sources can be read, with the one
result that is assembled from them. A file that is refused decides the error whatever the text is,
and a text that is refused decides it only after a file that is not.
-/

namespace PreviewLint

/-! ## Bytes and texts -/

namespace Files

theorem fromUTF8?_eq_some_iff {content : ByteArray} {text : String} :
    String.fromUTF8? content = some text ↔ content = text.toUTF8 := by
  rw [String.fromUTF8?]
  constructor
  · intro decoded
    split at decoded
    · cases decoded
      rfl
    · cases decoded
  · rintro rfl
    rw [String.toUTF8_eq_toByteArray, dif_pos text.isValidUTF8]
    rfl

variable {stored : String → Except ReadFailure ByteArray} {path : String}

theorem ofBytes_eq_ok_iff {text : String} :
    ofBytes stored path = .ok text ↔ stored path = .ok text.toUTF8 := by
  simp only [ofBytes]
  cases stored path with
  | error cause => simp [bind, Except.bind]
  | ok content =>
      simp only [bind, Except.bind, decode, Except.ok.injEq, ← fromUTF8?_eq_some_iff]
      cases String.fromUTF8? content <;> simp

theorem ofBytes_eq_error_iff {cause : ReadFailure} :
    ofBytes stored path = .error cause ↔ stored path = .error cause ∨
      cause = .invalidText ∧ ∃ content, stored path = .ok content ∧
        ∀ text : String, content ≠ text.toUTF8 := by
  simp only [ofBytes]
  cases stored path with
  | error other => simp [bind, Except.bind]
  | ok content =>
      simp only [bind, Except.bind, decode, Except.ok.injEq, ne_eq, ← fromUTF8?_eq_some_iff]
      cases decoded : String.fromUTF8? content <;> simp [decoded, eq_comm]

end Files

namespace Variables

/-! ## What the sources hold -/

/-- A text holds an object if it is written as one. -/
def TextHolds (text : String) (fields : Variables) : Prop := Json.Spelled text (.object fields)

/-- Why a text that comes from `source` holds no object. -/
inductive TextRefused (source text : String) : LoadError → Prop where
  | malformed (unwritten : ∀ json, ¬Json.Spelled text json) :
      TextRefused source text (.malformed source)
  | notAnObject {json : Json} (written : Json.Spelled text json)
      (other : ∀ fields, json ≠ .object fields) : TextRefused source text (.notAnObject source)

/-- A file holds the bytes of a text with an object in it. -/
def FileHolds (stored : String → Except ReadFailure ByteArray) (path : String)
    (fields : Variables) : Prop :=
  ∃ text : String, stored path = .ok text.toUTF8 ∧ TextHolds text fields

/-- Why a file holds no object. -/
inductive FileRefused (stored : String → Except ReadFailure ByteArray) (path : String) :
    LoadError → Prop where
  | unreadable {cause : ReadFailure} (failed : stored path = .error cause) :
      FileRefused stored path (.unreadable path cause)
  | invalidText {content : ByteArray} (holds : stored path = .ok content)
      (invalid : ∀ text : String, content ≠ text.toUTF8) :
      FileRefused stored path (.unreadable path .invalidText)
  | refused {text : String} {cause : LoadError} (holds : stored path = .ok text.toUTF8)
      (refused : TextRefused path text cause) : FileRefused stored path cause

/-- The variables of a source that may be missing. -/
inductive Supplies (holds : String → Variables → Prop) : Option String → Variables → Prop where
  | missing : Supplies holds none ∅
  | given {source : String} {fields : Variables} (inside : holds source fields) :
      Supplies holds (some source) fields

section Sources

variable {fields : Variables} {cause : LoadError}

theorem parse_eq_ok_iff {source text : String} :
    parse source text = .ok fields ↔ TextHolds text fields := by
  rw [parse, TextHolds, ← Json.parse?_eq_some_iff]
  split <;> simp_all

theorem parse_eq_error_iff {source text : String} :
    parse source text = .error cause ↔ TextRefused source text cause := by
  rw [parse]
  constructor
  · intro failed
    split at failed
    · cases failed
    · next other read =>
        cases failed
        exact .notAnObject (Json.parse?_eq_some_iff.mp read) other
    · next read =>
        cases failed
        exact .malformed (Json.parse?_eq_none_iff.mp read)
  · rintro (unwritten | ⟨written, other⟩)
    · rw [Json.parse?_eq_none_iff.mpr unwritten]
    · rw [Json.parse?_eq_some_iff.mpr written]
      split <;> simp_all

variable {stored : String → Except ReadFailure ByteArray} {path : String}

theorem parseFile_eq_ok_iff :
    parseFile (.ofBytes stored) path = .ok fields ↔ FileHolds stored path fields := by
  simp only [parseFile, FileHolds, ← Files.ofBytes_eq_ok_iff]
  cases Files.ofBytes stored path with
  | error failure => simp
  | ok text => simp [parse_eq_ok_iff]

theorem parseFile_eq_error_iff :
    parseFile (.ofBytes stored) path = .error cause ↔ FileRefused stored path cause := by
  rw [parseFile]
  constructor
  · intro failed
    split at failed
    · next text read =>
        exact .refused (Files.ofBytes_eq_ok_iff.mp read) (parse_eq_error_iff.mp failed)
    · next failure read =>
        cases failed
        rcases Files.ofBytes_eq_error_iff.mp read with failed | ⟨rfl, content, holds, invalid⟩
        · exact .unreadable failed
        · exact .invalidText holds invalid
  · intro refused
    cases refused with
    | unreadable failed => rw [Files.ofBytes_eq_error_iff.mpr (Or.inl failed)]
    | invalidText holds invalid =>
        rw [Files.ofBytes_eq_error_iff.mpr (Or.inr ⟨rfl, _, holds, invalid⟩)]
    | refused holds refused =>
        rw [Files.ofBytes_eq_ok_iff.mpr holds]
        exact parse_eq_error_iff.mpr refused

variable {read : String → Except LoadError Variables} {source : Option String}

theorem getD_eq_ok_iff {holds : String → Variables → Prop}
    (exact : ∀ given fields, read given = .ok fields ↔ holds given fields) :
    (source.map read).getD (.ok ∅) = .ok fields ↔ Supplies holds source fields := by
  cases source with
  | none =>
      constructor
      · rintro ⟨⟩
        exact .missing
      · rintro ⟨⟩
        rfl
  | some given =>
      rw [Option.map_some, Option.getD_some, exact]
      constructor
      · exact .given
      · rintro ⟨⟩
        assumption

theorem getD_eq_error_iff {refused : String → LoadError → Prop}
    (exact : ∀ given cause, read given = .error cause ↔ refused given cause) :
    (source.map read).getD (.ok ∅) = .error cause ↔
      ∃ given, source = some given ∧ refused given cause := by
  cases source with
  | none => simp
  | some given => simp [exact]

end Sources

/-! ## What is made of them -/

/-- The variables that two objects and a flag give together. -/
structure Assembled (fromFile fromText : Variables) (preview : Option Bool)
    (result : Variables) : Prop where
  distinct : result.names.Nodup
  /-- The flag wins over the text, and the text over the file. -/
  get?_eq : ∀ name, result.get? name =
    (if name = previewName then preview.map Json.bool else none).or
      ((fromText.get? name).or (fromFile.get? name))
  /-- A name that is overridden keeps its place. -/
  names_eq : result.names =
    fromFile.names ++ fromText.names.filter (· ∉ fromFile.names) ++
      if preview.isSome ∧ previewName ∉ fromFile.names ∧ previewName ∉ fromText.names then
        [previewName] else []

/-- The variables are determined by the sources. -/
theorem Assembled.unique {fromFile fromText first second : Variables} {preview : Option Bool}
    (one : Assembled fromFile fromText preview first)
    (other : Assembled fromFile fromText preview second) : first = second := by
  apply Fields.eq_of_names_eq
  · rw [one.names_eq, other.names_eq]
  · intro name
    rw [one.get?_eq, other.get?_eq]

/-- The variables as loading writes them. -/
def written (fromFile fromText : Variables) (preview : Option Bool) : Variables :=
  let together := (Fields.merge ∅ fromFile).merge fromText
  (preview.map fun flag => together.insert previewName (.bool flag)).getD together

theorem assembled_written (fromFile fromText : Variables) (preview : Option Bool) :
    Assembled fromFile fromText preview (written fromFile fromText preview) := by
  have names := Fields.names_merge fromFile fromText
  have values := Fields.get?_merge fromFile fromText
  refine ⟨Fields.nodup_names _, ?_, ?_⟩
  · intro name
    rw [written, Fields.merge_empty]
    cases preview with
    | none => simp [values]
    | some flag =>
        rw [Option.map_some, Option.getD_some, Fields.get?_insert, values]
        by_cases same : name = previewName
        · simp [same]
        · simp [same, Ne.symm same]
  · rw [written, Fields.merge_empty]
    cases preview with
    | none => simp [names]
    | some flag =>
        rw [Option.map_some, Option.getD_some, Fields.names_insert, names]
        by_cases inFile : previewName ∈ fromFile.names
        · simp [inFile]
        · by_cases inText : previewName ∈ fromText.names <;> simp [inFile, inText]

/-! ## Loading -/

section Loading

variable {stored : String → Except ReadFailure ByteArray} {file inline : Option String}
  {preview : Option Bool}

theorem supplies_file_iff {fields : Variables} :
    (file.map (parseFile (.ofBytes stored))).getD (.ok ∅) = .ok fields ↔
      Supplies (FileHolds stored) file fields :=
  getD_eq_ok_iff fun _ _ => parseFile_eq_ok_iff

theorem supplies_text_iff {fields : Variables} :
    (inline.map (parse inlineSource)).getD (.ok ∅) = .ok fields ↔
      Supplies TextHolds inline fields :=
  getD_eq_ok_iff fun _ _ => parse_eq_ok_iff

theorem load_eq_ok_iff {result : Variables} :
    load (.ofBytes stored) file inline preview = .ok result ↔
      ∃ fromFile fromText, Supplies (FileHolds stored) file fromFile ∧
        Supplies TextHolds inline fromText ∧ written fromFile fromText preview = result := by
  simp only [load, ← supplies_file_iff, ← supplies_text_iff]
  cases (file.map (parseFile (.ofBytes stored))).getD (.ok ∅) with
  | error cause => simp [bind, Except.bind]
  | ok fromFile =>
      cases (inline.map (parse inlineSource)).getD (.ok ∅) with
      | error cause => simp [bind, Except.bind]
      | ok fromText => simp [bind, Except.bind, pure, Except.pure, written]

theorem load_eq_error_iff {cause : LoadError} :
    load (.ofBytes stored) file inline preview = .error cause ↔
      (∃ path, file = some path ∧ FileRefused stored path cause) ∨
        (∃ fromFile, Supplies (FileHolds stored) file fromFile) ∧
          ∃ text, inline = some text ∧ TextRefused inlineSource text cause := by
  rw [← getD_eq_error_iff fun _ _ => parseFile_eq_error_iff,
    ← getD_eq_error_iff fun _ _ => parse_eq_error_iff]
  simp only [load, ← supplies_file_iff]
  cases (file.map (parseFile (.ofBytes stored))).getD (.ok ∅) with
  | error cause => simp [bind, Except.bind]
  | ok fromFile =>
      cases (inline.map (parse inlineSource)).getD (.ok ∅) with
      | error cause => simp [bind, Except.bind]
      | ok fromText => simp [bind, Except.bind, pure, Except.pure]

/-- What is written is assembled from the sources, and nothing else is. -/
theorem written_eq_iff {fromFile fromText result : Variables} :
    written fromFile fromText preview = result ↔
      Assembled fromFile fromText preview result := by
  constructor
  · rintro rfl
    exact assembled_written fromFile fromText preview
  · exact (assembled_written fromFile fromText preview).unique

/--
Loading succeeds exactly if each source that is given holds an object, with the one result that is
assembled from the objects and the flag. Otherwise it gives the reason why the file is refused, and
only for a file that is not refused the reason why the text is.
-/
theorem load_assembles (stored : String → Except ReadFailure ByteArray)
    (file inline : Option String) (preview : Option Bool) :
    ((∃ result, load (.ofBytes stored) file inline preview = .ok result) ↔
      (∃ fromFile, Supplies (FileHolds stored) file fromFile) ∧
        ∃ fromText, Supplies TextHolds inline fromText) ∧
      (∀ result, load (.ofBytes stored) file inline preview = .ok result ↔
        ∃ fromFile fromText, Supplies (FileHolds stored) file fromFile ∧
          Supplies TextHolds inline fromText ∧ Assembled fromFile fromText preview result) ∧
      ∀ cause, load (.ofBytes stored) file inline preview = .error cause ↔
        (∃ path, file = some path ∧ FileRefused stored path cause) ∨
          (∃ fromFile, Supplies (FileHolds stored) file fromFile) ∧
            ∃ text, inline = some text ∧ TextRefused inlineSource text cause := by
  refine ⟨?_, ?_, fun cause => load_eq_error_iff⟩
  · simp only [load_eq_ok_iff]
    constructor
    · rintro ⟨result, fromFile, fromText, first, second, _⟩
      exact ⟨⟨fromFile, first⟩, fromText, second⟩
    · rintro ⟨⟨fromFile, first⟩, fromText, second⟩
      exact ⟨_, fromFile, fromText, first, second, rfl⟩
  · intro result
    simp only [load_eq_ok_iff, written_eq_iff]

/-- A file and a text that share a name, and each of which repeats one. -/
theorem overlapping_assembled :
    ∃ result, load (.ofBytes fun _ => .ok "\x7b\"a\": 1, \"b\": 2, \"a\": 3\x7d".toUTF8)
        (some "variables.json") (some "\x7b\"b\": 4, \"c\": 5, \"b\": 6\x7d") (some true) =
          .ok result ∧
      result.toList = [("a", .number (.integer 3)), ("b", .number (.integer 6)),
        ("c", .number (.integer 5)), ("preview", .bool true)] := by
  have fromFile : TextHolds "\x7b\"a\": 1, \"b\": 2, \"a\": 3\x7d"
      (.ofList [("a", .number (.integer 3)), ("b", .number (.integer 2))]) :=
    Json.parse?_eq_some_iff.mp rfl
  have fromText : TextHolds "\x7b\"b\": 4, \"c\": 5, \"b\": 6\x7d"
      (.ofList [("b", .number (.integer 6)), ("c", .number (.integer 5))]) :=
    Json.parse?_eq_some_iff.mp rfl
  have loaded := (load_assembles (fun _ => .ok _) _ _ _).2.1 _ |>.mpr
    ⟨_, _, .given ⟨_, rfl, fromFile⟩, .given fromText, assembled_written _ _ (some true)⟩
  exact ⟨_, loaded, rfl⟩

end Loading

end Variables

end PreviewLint
