import PreviewLint.Preview.Resolution
import PreviewLint.Proofs.Fields

/-!
# Resolution is substitution

Resolving a value looks variables up while it goes through the value. This file separates the
two: `Value.substitute` puts the literals of the given values in the places of the variables,
and what is left mentions no variable, so that any variables resolve it alike. The literal of a
JSON value is `Json.quote`; resolving it gives the JSON value back.

All of this keeps the order of lists and of fields. An object has every name once, before and
after: writing its resolved fields one after the other gives exactly the resolved fields.
-/

namespace PreviewLint

/-- What is done to the elements of a list one after the other is a map. -/
theorem eq_map_of_cons {α β : Type} {many : List α → List β} {one : α → β} (nil : many [] = [])
    (cons : ∀ first rest, many (first :: rest) = one first :: many rest) (list : List α) :
    many list = list.map one := by
  induction list with
  | nil => exact nil
  | cons first rest ih => rw [cons, ih, List.map_cons]

/-- What is done to the values of some fields one after the other is a map. -/
theorem eq_map_of_entries {α β : Type} {one : α → β}
    {many : {names : List String} → Entries α names → Entries β names}
    (nil : many .nil = .nil)
    (cons : ∀ {names : List String} (name : String) (fresh : name ∉ names) (value : α)
      (rest : Entries α names),
      many (.cons name fresh value rest) = .cons name fresh (one value) (many rest))
    {names : List String} (entries : Entries α names) :
    (⟨many entries⟩ : Fields β) = Fields.map one ⟨entries⟩ := by
  have same : many entries = entries.map one := by
    induction entries with
    | nil => exact nil
    | cons name fresh value rest ih => rw [cons, ih, Entries.map]
  rw [same, Fields.map]

/-! ## Literals -/

namespace Json

/-- What holds of an array or an object if it holds inside, holds of every value. -/
@[elab_as_elim]
theorem induction {motive : Json → Prop} (null : motive null)
    (bool : ∀ value, motive (bool value)) (number : ∀ value, motive (number value))
    (string : ∀ value, motive (string value))
    (array : ∀ items, (∀ item ∈ items, motive item) → motive (array items))
    (object : ∀ fields, (∀ field ∈ fields.toList, motive field.2) → motive (object fields))
    (json : Json) : motive json := by
  refine @Json.rec motive (fun items => ∀ item ∈ items, motive item)
    (fun fields => ∀ field ∈ fields.toList, motive field.2)
    (fun _ entries => ∀ field ∈ entries.toList, motive field.2)
    null bool number string array object ?_ ?_ ?_ ?_ ?_ json
  · simp
  · intro item items here later
    simpa using ⟨here, later⟩
  · intro _ entries inside
    exact inside
  · simp [Entries.toList]
  · intro _ name fresh value rest here later
    rw [Entries.toList, List.forall_mem_cons]
    exact ⟨here, later⟩

mutual

/-- The literal of a value. -/
def quote : Json → Value
  | null => .null
  | bool value => .boolean value
  | number value => .number value
  | string value => .string value
  | array items => .list (quoteItems items)
  | object ⟨entries⟩ => .object ⟨quoteEntries entries⟩

/-- The literals of some values. -/
def quoteItems : List Json → List Value
  | [] => []
  | item :: items => quote item :: quoteItems items

/-- The literals of the values of some fields. -/
def quoteEntries {names : List String} : Entries Json names → Entries Value names
  | .nil => .nil
  | .cons name fresh value rest => .cons name fresh (quote value) (quoteEntries rest)

end

theorem quote_array (items : List Json) : (array items).quote = .list (items.map quote) := by
  rw [quote]
  exact congrArg Value.list (eq_map_of_cons rfl (fun _ _ => rfl) items)

theorem quote_object (fields : Fields Json) :
    (object fields).quote = .object (fields.map quote) := by
  obtain ⟨entries⟩ := fields
  rw [quote]
  exact congrArg Value.object (eq_map_of_entries rfl (fun _ _ _ _ => rfl) entries)

end Json

/-! ## Substitution -/

namespace Value

/-- What holds of a list or an object if it holds inside, holds of every value. -/
@[elab_as_elim]
theorem induction {motive : Value → Prop} (reference : ∀ name, motive (.variable name))
    (null : motive null) (number : ∀ value, motive (number value))
    (string : ∀ value, motive (string value)) (boolean : ∀ value, motive (boolean value))
    (enum : ∀ name, motive (enum name)) (binary : ∀ bytes, motive (binary bytes))
    (list : ∀ items, (∀ item ∈ items, motive item) → motive (list items))
    (object : ∀ fields, (∀ field ∈ fields.toList, motive field.2) → motive (object fields))
    (value : Value) : motive value := by
  refine @Value.rec motive (fun items => ∀ item ∈ items, motive item)
    (fun fields => ∀ field ∈ fields.toList, motive field.2)
    (fun _ entries => ∀ field ∈ entries.toList, motive field.2)
    reference null number string boolean enum binary list object ?_ ?_ ?_ ?_ ?_ value
  · simp
  · intro item items here later
    simpa using ⟨here, later⟩
  · intro _ entries inside
    exact inside
  · simp [Entries.toList]
  · intro _ name fresh value rest here later
    rw [Entries.toList, List.forall_mem_cons]
    exact ⟨here, later⟩

variable (given : Variables)

mutual

/-- A value with every variable replaced by the literal of its value, or by null if it has none. -/
def substitute : Value → Value
  | .variable name => ((given.get? name).map Json.quote).getD .null
  | .null => .null
  | .number value => .number value
  | .string value => .string value
  | .boolean value => .boolean value
  | .enum name => .enum name
  | .binary bytes => .binary bytes
  | .list items => .list (substituteItems items)
  | .object ⟨entries⟩ => .object ⟨substituteEntries entries⟩

/-- Some values with every variable replaced. -/
def substituteItems : List Value → List Value
  | [] => []
  | item :: items => substitute item :: substituteItems items

/-- Some fields with every variable in their values replaced. -/
def substituteEntries {names : List String} : Entries Value names → Entries Value names
  | .nil => .nil
  | .cons name fresh value rest => .cons name fresh (substitute value) (substituteEntries rest)

end

theorem substitute_list (items : List Value) :
    (list items).substitute given = .list (items.map (·.substitute given)) := by
  rw [substitute]
  exact congrArg list (eq_map_of_cons rfl (fun _ _ => rfl) items)

theorem substitute_object (fields : Fields Value) :
    (object fields).substitute given = .object (fields.map (·.substitute given)) := by
  obtain ⟨entries⟩ := fields
  rw [substitute]
  exact congrArg object (eq_map_of_entries rfl (fun _ _ _ _ => rfl) entries)

theorem resolve_list (items : List Value) :
    (list items).resolve given = .array (items.map (·.resolve given)) := by
  rw [resolve]
  exact congrArg Json.array (eq_map_of_cons rfl (fun _ _ => rfl) items)

theorem resolve_object (fields : Fields Value) :
    (object fields).resolve given = .object (fields.map (·.resolve given)) := by
  obtain ⟨entries⟩ := fields
  rw [resolve]
  exact congrArg Json.object (eq_map_of_entries rfl (fun _ _ _ _ => rfl) entries)

/-- A variable stands in a value, at any depth. -/
inductive Mentions (name : String) : Value → Prop where
  | here : Mentions name (.variable name)
  | item {items : List Value} {item : Value} (member : item ∈ items)
      (inside : item.Mentions name) : Mentions name (.list items)
  | field {fields : Fields Value} {field : String × Value} (member : field ∈ fields.toList)
      (inside : field.2.Mentions name) : Mentions name (.object fields)

theorem mentions_list_iff {name : String} {items : List Value} :
    (list items).Mentions name ↔ ∃ item ∈ items, item.Mentions name := by
  constructor
  · intro mentions
    cases mentions with
    | item member inside => exact ⟨_, member, inside⟩
  · rintro ⟨item, member, inside⟩
    exact .item member inside

theorem mentions_object_iff {name : String} {fields : Fields Value} :
    (object fields).Mentions name ↔ ∃ field ∈ fields.toList, field.2.Mentions name := by
  constructor
  · intro mentions
    cases mentions with
    | field member inside => exact ⟨_, member, inside⟩
  · rintro ⟨field, member, inside⟩
    exact .field member inside

end Value

/-! ## Resolving what was substituted -/

namespace Json

theorem resolve_quote (json : Json) (given : Variables) : json.quote.resolve given = json := by
  induction json using Json.induction with
  | null | bool | number | string => rfl
  | array items ih =>
      rw [quote_array, Value.resolve_list, List.map_map]
      exact congrArg array ((List.map_congr_left ih).trans (List.map_id items))
  | object fields ih =>
      rw [quote_object, Value.resolve_object, Fields.map_map]
      exact congrArg object ((Fields.map_congr ih).trans fields.map_id)

theorem not_mentions_quote (json : Json) (name : String) : ¬json.quote.Mentions name := by
  induction json using Json.induction with
  | null | bool | number | string => rintro ⟨⟩
  | array items ih =>
      simpa [quote_array, Value.mentions_list_iff] using ih
  | object fields ih =>
      simpa [quote_object, Value.mentions_object_iff, Fields.toList_map] using ih

end Json

namespace Value

/-- Whatever variables are given later, a substituted value stands for what the value did. -/
theorem resolve_substitute (value : Value) (first second : Variables) :
    (value.substitute first).resolve second = value.resolve first := by
  induction value using Value.induction with
  | null | number | string | boolean | enum | binary => rfl
  | reference name =>
      rw [substitute, resolve, Variables.valueOf]
      cases first.get? name with
      | none => rfl
      | some json => exact json.resolve_quote second
  | list items ih =>
      rw [substitute_list, resolve_list, resolve_list, List.map_map]
      exact congrArg Json.array (List.map_congr_left ih)
  | object fields ih =>
      rw [substitute_object, resolve_object, resolve_object, Fields.map_map]
      exact congrArg Json.object (Fields.map_congr ih)

/-- Substitution leaves no variable, at any depth. -/
theorem not_mentions_substitute (value : Value) (given : Variables) (name : String) :
    ¬(value.substitute given).Mentions name := by
  induction value using Value.induction with
  | null | number | string | boolean | enum | binary => rintro ⟨⟩
  | reference other =>
      rw [substitute]
      cases given.get? other with
      | none => rintro ⟨⟩
      | some json => exact json.not_mentions_quote name
  | list items ih =>
      simpa [substitute_list, mentions_list_iff] using ih
  | object fields ih =>
      simpa [substitute_object, mentions_object_iff, Fields.toList_map] using ih

end Value

namespace Value

/--
Resolving a value under some variables is substituting them first and resolving what is left,
which mentions no variable, under any others. The literal of a JSON value stands for this value.
Lists and objects keep their order. A resolved object has the names of the object, each once, and
is the same if it is written field by field.
-/
theorem resolve_as_substitution :
    (∀ (value : Value) (first second : Variables),
        value.resolve first = (value.substitute first).resolve second) ∧
      (∀ (json : Json) (given : Variables), json.quote.resolve given = json) ∧
      (∀ (value : Value) (given : Variables) (name : String),
        ¬(value.substitute given).Mentions name) ∧
      (∀ (items : List Value) (given : Variables),
        (list items).resolve given = .array (items.map (·.resolve given))) ∧
      ∀ (fields : Fields Value) (given : Variables), ∃ resolved : Fields Json,
        (object fields).resolve given = .object resolved ∧
          resolved.toList = fields.toList.map (fun field => (field.1, field.2.resolve given)) ∧
          resolved = .ofList (fields.toList.map fun field => (field.1, field.2.resolve given)) ∧
          resolved.names = fields.names ∧ resolved.names.Nodup := by
  refine ⟨fun value first second => (value.resolve_substitute first second).symm,
    Json.resolve_quote, not_mentions_substitute, fun items given => resolve_list given items, ?_⟩
  intro fields given
  exact ⟨fields.map (·.resolve given), resolve_object given fields, fields.toList_map _,
    (fields.ofList_map_toList _).symm, rfl, fields.nodup_names⟩

/-- The value `{ z: 1, a: [$x, "y", { b: null }], m: $missing }`. -/
def nestedVariables : Value :=
  .object (.ofList [("z", .number (.integer 1)),
    ("a", .list [.variable "x", .string "y", .object (.ofList [("b", .null)])]),
    ("m", .variable "missing")])

/-- An object for `x` and nothing for `missing`, and other values for both of them afterwards. -/
theorem nestedVariables_substituted :
    (nestedVariables.substitute (.ofList [("x", .object (.ofList [("k", .bool false)]))])).resolve
        (.ofList [("x", .null), ("missing", .bool true)]) =
      .object (.ofList [("z", .number (.integer 1)),
        ("a", .array [.object (.ofList [("k", .bool false)]), .string "y",
          .object (.ofList [("b", .null)])]),
        ("m", .null)]) := by
  rw [← resolve_as_substitution.1]
  rfl

end Value

end PreviewLint
