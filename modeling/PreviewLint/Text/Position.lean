/-!
# Positions in a text

A position is a line and a column, both counted from one, and a column counts
characters. Two rules for counting are in use, and they differ at carriage
returns only.

* The nodes of a document use `Position.following`. A line feed starts a new
  line; a carriage return goes back to the first column of the *same* line.
  Two nodes can therefore share one position.
* The place where a text stops matching its grammar uses `Position.ofFailure`.
  A line feed starts a new line, alone or after a carriage return; a carriage
  return on its own is a character like any other.

Both are functions of the characters that stand before the place in question.
-/

namespace PreviewLint

/-- A line and a column, both counted from one. -/
structure Position where
  line : Nat
  column : Nat
  deriving DecidableEq, Repr, Inhabited

namespace Position

/-- The position at which every text begins. -/
def start : Position := ⟨1, 1⟩

/-- The position of an error that concerns no place in particular. -/
def nowhere : Position := ⟨0, 0⟩

/-- Text order: by line, then by column. -/
instance : LE Position where
  le first second :=
    first.line < second.line ∨ (first.line = second.line ∧ first.column ≤ second.column)

instance (first second : Position) : Decidable (first ≤ second) :=
  inferInstanceAs (Decidable (_ ∨ _))

instance : LT Position where
  lt first second :=
    first.line < second.line ∨ (first.line = second.line ∧ first.column < second.column)

instance (first second : Position) : Decidable (first < second) :=
  inferInstanceAs (Decidable (_ ∨ _))

/-- The position after one more character of a document. -/
def advance (position : Position) (character : Char) : Position :=
  if character = '\n' then ⟨position.line + 1, 1⟩
  else if character = '\r' then ⟨position.line, 1⟩
  else ⟨position.line, position.column + 1⟩

/-- The position of the node that follows the characters `before`. -/
def following (before : List Char) : Position :=
  before.foldl advance start

/-- Counts on from `position`, taking a carriage return with its line feed as one line end. -/
def advanceLines (position : Position) : List Char → Position
  | [] => position
  | '\r' :: '\n' :: rest => advanceLines ⟨position.line + 1, 1⟩ rest
  | '\n' :: rest => advanceLines ⟨position.line + 1, 1⟩ rest
  | _ :: rest => advanceLines ⟨position.line, position.column + 1⟩ rest

/-- The position of a failure that follows the characters `before`. -/
def ofFailure (before : List Char) : Position :=
  advanceLines start before

/-- A position as it is written in messages: line, colon, column. -/
def text (position : Position) : String :=
  toString position.line ++ ":" ++ toString position.column

end Position

end PreviewLint
