import Mathlib.Data.List.Nodup
import PreviewLint.Fields

/-!
# Names and values of ordered fields

This file says what writing does to the names of some fields and to their values. The names
tell the order: a name that is there already stays where it is, and new names follow in the
order in which they are written first. The value of a name is the one that was written last.

Fields are determined by their names, in order, and the values of these, and writing them one
after the other gives them back.
-/

namespace PreviewLint

theorem lookup_cons_eq_ite {α : Type} (first name : String) (value : α)
    (rest : List (String × α)) :
    ((first, value) :: rest).lookup name =
      if first = name then some value else rest.lookup name := by
  rw [List.lookup_cons]
  by_cases same : first = name
  · simp [same]
  · rw [if_neg same, beq_false_of_ne (Ne.symm same)]

namespace Entries

variable {α β : Type} {names : List String}

theorem map_fst_toList (entries : Entries α names) : entries.toList.map Prod.fst = names := by
  induction entries with
  | nil => rfl
  | cons name _ value rest ih => rw [toList, List.map_cons, ih]

theorem nodup_names (entries : Entries α names) : names.Nodup := by
  induction entries with
  | nil => exact List.nodup_nil
  | cons _ fresh _ _ ih => exact List.nodup_cons.mpr ⟨fresh, ih⟩

theorem get?_eq_lookup (name : String) (entries : Entries α names) :
    entries.get? name = entries.toList.lookup name := by
  induction entries with
  | nil => rfl
  | cons first _ value rest ih =>
      rw [get?, toList, lookup_cons_eq_ite, ih]

theorem get?_eq_none_iff {name : String} {entries : Entries α names} :
    entries.get? name = none ↔ name ∉ names := by
  rw [get?_eq_lookup, List.lookup_eq_none_iff]
  constructor
  · intro differs member
    rw [← entries.map_fst_toList] at member
    rcases List.mem_map.mp member with ⟨entry, listed, rfl⟩
    simpa using differs entry listed
  · intro absent entry listed
    rw [← entries.map_fst_toList] at absent
    have differs : name ≠ entry.1 :=
      fun same => absent (List.mem_map.mpr ⟨entry, listed, same.symm⟩)
    simpa using differs

theorem get?_set {name : String} (value : α) (other : String) (entries : Entries α names)
    (present : name ∈ names) :
    (entries.set name value).get? other =
      if name = other then some value else entries.get? other := by
  induction entries with
  | nil => cases present
  | cons first fresh old rest ih =>
      rw [set]
      by_cases found : first = name
      · subst found
        rw [if_pos rfl, get?, get?]
        split <;> rfl
      · have later := ih ((List.mem_cons.mp present).resolve_left (Ne.symm found))
        rw [if_neg found, get?, get?, later]
        by_cases here : first = other
        · have differs : name ≠ other := fun same => found (here.trans same.symm)
          simp only [if_pos here, if_neg differs]
        · simp only [if_neg here]

theorem toList_add {name : String} (value : α) (entries : Entries α names)
    (absent : name ∉ names) :
    (entries.add name value absent).toList = entries.toList ++ [(name, value)] := by
  induction entries with
  | nil => rfl
  | cons first fresh old rest ih => rw [add, toList, toList, ih, List.cons_append]

theorem get?_add {name : String} (value : α) (other : String) (entries : Entries α names)
    (absent : name ∉ names) :
    (entries.add name value absent).get? other =
      if name = other then some value else entries.get? other := by
  rw [get?_eq_lookup, toList_add, List.lookup_append, ← get?_eq_lookup, lookup_cons_eq_ite]
  by_cases same : name = other
  · subst same
    simp [get?_eq_none_iff.mpr absent]
  · simp [same]

/-- Entries for the same names are equal if their values are. -/
theorem eq_of_get?_eq {first second : Entries α names}
    (values : ∀ name, first.get? name = second.get? name) : first = second := by
  induction first with
  | nil => cases second; rfl
  | cons name fresh value rest ih =>
      cases second with
      | cons _ _ value' rest' =>
          have here := values name
          simp only [get?, if_pos] at here
          have later : ∀ other, rest.get? other = rest'.get? other := by
            intro other
            by_cases same : name = other
            · subst same
              rw [get?_eq_none_iff.mpr fresh, get?_eq_none_iff.mpr fresh]
            · have found := values other
              rwa [get?, get?, if_neg same, if_neg same] at found
          rw [Option.some.inj here, ih later]

/-- Changes every value. -/
def map (change : α → β) : {names : List String} → Entries α names → Entries β names
  | _, nil => nil
  | _, cons name fresh value rest => cons name fresh (change value) (rest.map change)

theorem toList_map (change : α → β) (entries : Entries α names) :
    (entries.map change).toList = entries.toList.map fun entry => (entry.1, change entry.2) := by
  induction entries with
  | nil => rfl
  | cons _ _ _ _ ih => simp only [map, toList, List.map_cons, ih]

end Entries

namespace Fields

variable {α β : Type}

theorem map_fst_toList (fields : Fields α) : fields.toList.map Prod.fst = fields.names :=
  fields.entries.map_fst_toList

theorem nodup_names (fields : Fields α) : fields.names.Nodup := fields.entries.nodup_names

theorem get?_eq_lookup (fields : Fields α) (name : String) :
    fields.get? name = fields.toList.lookup name :=
  fields.entries.get?_eq_lookup name

@[simp]
theorem get?_empty (name : String) : (∅ : Fields α).get? name = none := rfl

@[simp]
theorem names_empty : (∅ : Fields α).names = [] := rfl

/-- Fields are determined by their names, in order, and the values of these. -/
theorem eq_of_names_eq {first second : Fields α} (same : first.names = second.names)
    (values : ∀ name, first.get? name = second.get? name) : first = second := by
  obtain ⟨entries⟩ := first
  obtain ⟨others⟩ := second
  cases same
  exact congrArg Fields.mk (Entries.eq_of_get?_eq values)

theorem eq_of_toList_eq {first second : Fields α} (same : first.toList = second.toList) :
    first = second := by
  apply eq_of_names_eq
  · rw [← map_fst_toList, same, map_fst_toList]
  · intro name
    rw [get?_eq_lookup, get?_eq_lookup, same]

/-! ## One name -/

theorem names_insert (name : String) (value : α) (fields : Fields α) :
    (fields.insert name value).names =
      if name ∈ fields.names then fields.names else fields.names ++ [name] := by
  by_cases present : name ∈ fields.names <;> simp [insert, present]

theorem get?_insert (name other : String) (value : α) (fields : Fields α) :
    (fields.insert name value).get? other =
      if name = other then some value else fields.get? other := by
  rw [insert]
  split
  · next absent => exact Entries.get?_add value other fields.entries absent
  · next present => exact Entries.get?_set value other fields.entries (not_not.mp present)

theorem toList_insert {name : String} (value : α) {fields : Fields α}
    (absent : name ∉ fields.names) :
    (fields.insert name value).toList = fields.toList ++ [(name, value)] := by
  rw [insert, dif_pos absent]
  exact Entries.toList_add value fields.entries absent

/-! ## Many names -/

theorem insertAll_cons (fields : Fields α) (name : String) (value : α)
    (written : List (String × α)) :
    fields.insertAll ((name, value) :: written) = (fields.insert name value).insertAll written :=
  rfl

/-- New names follow the ones that are there already, each where it is written first. -/
theorem names_insertAll (fields : Fields α) (written : List (String × α)) :
    (fields.insertAll written).names =
      fields.names ++ ((written.map Prod.fst).filter (· ∉ fields.names)).eraseDups := by
  induction written generalizing fields with
  | nil => simp [insertAll]
  | cons entry written ih =>
      obtain ⟨name, value⟩ := entry
      rw [insertAll_cons, ih, names_insert, List.map_cons]
      by_cases member : name ∈ fields.names
      · simp [member]
      · rw [if_neg member, List.filter_cons_of_pos (by simpa using member), List.eraseDups_cons,
          List.filter_filter, List.append_assoc, List.singleton_append]
        congr 4
        funext other
        by_cases same : other = name <;> simp [same]

/-- What was written last counts. -/
theorem get?_insertAll (fields : Fields α) (written : List (String × α)) (name : String) :
    (fields.insertAll written).get? name =
      (written.reverse.lookup name).or (fields.get? name) := by
  induction written generalizing fields with
  | nil => rfl
  | cons entry written ih =>
      obtain ⟨first, value⟩ := entry
      rw [insertAll_cons, ih, get?_insert, List.reverse_cons, List.lookup_append,
        lookup_cons_eq_ite, Option.or_assoc]
      by_cases same : first = name <;> simp [same]

/-- Names that are new and not repeated go to the end, in order. -/
theorem toList_insertAll {fields : Fields α} {written : List (String × α)}
    (distinct : (fields.names ++ written.map Prod.fst).Nodup) :
    (fields.insertAll written).toList = fields.toList ++ written := by
  induction written generalizing fields with
  | nil => exact (List.append_nil _).symm
  | cons entry written ih =>
      obtain ⟨name, value⟩ := entry
      have absent : name ∉ fields.names := by
        intro member
        exact (List.nodup_append.mp distinct).2.2 name member name List.mem_cons_self rfl
      have next : ((fields.insert name value).names ++ written.map Prod.fst).Nodup := by
        rwa [names_insert, if_neg absent, List.append_assoc]
      rw [insertAll_cons, ih next, toList_insert value absent, List.append_assoc]
      rfl

theorem toList_ofList {written : List (String × α)} (distinct : (written.map Prod.fst).Nodup) :
    (ofList written).toList = written :=
  toList_insertAll distinct

/-- Writing fields one after the other gives them back. -/
theorem ofList_toList (fields : Fields α) : ofList fields.toList = fields := by
  apply eq_of_toList_eq
  rw [toList_ofList]
  rw [map_fst_toList]
  exact fields.nodup_names

theorem eraseDups_of_nodup {names : List String} (distinct : names.Nodup) :
    names.eraseDups = names := by
  induction names with
  | nil => rfl
  | cons name names ih =>
      rcases List.nodup_cons.mp distinct with ⟨absent, distinct⟩
      rw [List.eraseDups_cons, List.filter_eq_self.mpr, ih distinct]
      intro other member
      have differs : other ≠ name := fun same => absent (same ▸ member)
      simpa using differs

/-- New names follow the ones that are there already. -/
theorem names_merge (fields later : Fields α) :
    (fields.merge later).names = fields.names ++ later.names.filter (· ∉ fields.names) := by
  rw [merge, names_insertAll, map_fst_toList, eraseDups_of_nodup]
  exact later.nodup_names.filter _

/-- The later fields count. -/
theorem get?_merge (fields later : Fields α) (name : String) :
    (fields.merge later).get? name = (later.get? name).or (fields.get? name) := by
  have last := get?_insertAll ∅ later.toList name
  rw [← ofList, ofList_toList, get?_empty, Option.or_none] at last
  rw [merge, get?_insertAll, last]

theorem merge_empty (fields : Fields α) : merge ∅ fields = fields := ofList_toList fields

/-! ## All values -/

/-- Changes every value. -/
def map (change : α → β) (fields : Fields α) : Fields β := ⟨fields.entries.map change⟩

theorem toList_map (change : α → β) (fields : Fields α) :
    (fields.map change).toList = fields.toList.map fun field => (field.1, change field.2) :=
  fields.entries.toList_map change

theorem map_congr {first second : α → β} {fields : Fields α}
    (same : ∀ field ∈ fields.toList, first field.2 = second field.2) :
    fields.map first = fields.map second := by
  apply eq_of_toList_eq
  rw [toList_map, toList_map]
  exact List.map_congr_left fun field member => congrArg (field.1, ·) (same field member)

theorem map_map {γ : Type} (change : α → β) (next : β → γ) (fields : Fields α) :
    (fields.map change).map next = fields.map fun value => next (change value) := by
  apply eq_of_toList_eq
  rw [toList_map, toList_map, toList_map, List.map_map]
  rfl

theorem map_id (fields : Fields α) : (fields.map fun value => value) = fields := by
  apply eq_of_toList_eq
  rw [toList_map]
  exact List.map_id _

/-- Writing changed values one after the other changes every value. -/
theorem ofList_map_toList (change : α → β) (fields : Fields α) :
    ofList (fields.toList.map fun field => (field.1, change field.2)) = fields.map change := by
  rw [← toList_map, ofList_toList]

end Fields

end PreviewLint
