/-!
# Ordered fields

Objects and sets of variables are named values, in order. No name occurs twice. The
names are part of the type of `Entries`, which asks for this with every entry; it can
do so at any depth of a value, since it does not look at the values.

Writing to a name that is there already changes its value and keeps its place, and a
new name goes to the end.
-/

namespace PreviewLint

/-- A value for each of some names, none of which occurs twice. -/
inductive Entries (α : Type) : List String → Type where
  | nil : Entries α []
  | cons {names : List String} (name : String) (fresh : name ∉ names) (value : α)
      (rest : Entries α names) : Entries α (name :: names)

namespace Entries

variable {α : Type}

def toList {names : List String} : Entries α names → List (String × α)
  | nil => []
  | cons name _ value rest => (name, value) :: rest.toList

def get? (name : String) {names : List String} : Entries α names → Option α
  | nil => none
  | cons first _ value rest => if first = name then some value else rest.get? name

/-- Changes the value of a name. -/
def set (name : String) (value : α) {names : List String} : Entries α names → Entries α names
  | nil => nil
  | cons first fresh old rest =>
    if first = name then cons first fresh value rest
    else cons first fresh old (rest.set name value)

/-- Adds a name at the end. -/
def add (name : String) (value : α) {names : List String} (absent : name ∉ names) :
    Entries α names → Entries α (names ++ [name])
  | nil => cons name absent value nil
  | cons first fresh old rest =>
    have later : first ∉ _ ++ [name] := by
      rw [List.mem_append, List.mem_singleton, not_or]
      exact ⟨fresh, fun same => absent (same ▸ List.mem_cons_self)⟩
    cons first later old (rest.add name value fun member => absent (List.mem_cons_of_mem _ member))

end Entries

/-- Named values, in order. -/
structure Fields (α : Type) where
  {names : List String}
  entries : Entries α names

namespace Fields

variable {α : Type}

instance : EmptyCollection (Fields α) := ⟨⟨.nil⟩⟩

def toList (fields : Fields α) : List (String × α) := fields.entries.toList

def get? (fields : Fields α) (name : String) : Option α := fields.entries.get? name

def insert (name : String) (value : α) (fields : Fields α) : Fields α :=
  if absent : name ∉ fields.names then ⟨fields.entries.add name value absent⟩
  else ⟨fields.entries.set name value⟩

/-- Writes named values one after the other. -/
def insertAll (fields : Fields α) (written : List (String × α)) : Fields α :=
  written.foldl (fun result (name, value) => result.insert name value) fields

/-- Writes the values of `later` over `fields`, one after the other. -/
def merge (fields later : Fields α) : Fields α := fields.insertAll later.toList

/-- Each name in its first place, with its last value. -/
def ofList (written : List (String × α)) : Fields α := insertAll ∅ written

end Fields

end PreviewLint
