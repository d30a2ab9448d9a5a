/-!
# Parsing expressions

A grammar is data here: every rule has a parsing expression as its body, and
one matcher (in `PreviewLint.Peg.Matcher`) gives all of them their meaning.
Parsing expressions choose in order, repeat as often as they can, and never
reconsider a choice that succeeded.

Blanks are not written in the bodies. A rule says through its `Spacing` whether
the blanks between its parts are skipped, and whether a failure of the rule is
worth reporting.
-/

namespace PreviewLint

/-- A parsing expression over the rules `R`. -/
inductive Peg (R : Type) where
  /-- Matches without reading anything. -/
  | empty
  /-- Matches one character of a class. -/
  | char (accepts : Char → Bool)
  /-- Matches a fixed text, whatever character follows it. -/
  | word (text : String)
  /-- Matches what the body of a rule matches. -/
  | rule (name : R)
  | seq (first second : Peg R)
  /-- Matches the second expression where the first does not match. -/
  | choice (first second : Peg R)
  | maybe (body : Peg R)
  /-- Matches an expression as often as possible. -/
  | many (body : Peg R)
  /-- Reads nothing, and matches where an expression does not. -/
  | absent (body : Peg R)

namespace Peg

variable {R : Type}

instance : Append (Peg R) := ⟨seq⟩

instance : OrOp (Peg R) := ⟨choice⟩

/-- At least one match, and as many as possible. -/
def many1 (body : Peg R) : Peg R := body ++ many body

def only (character : Char) : Peg R := char (· == character)

def any : Peg R := char fun _ => true

end Peg

/-- How a rule treats the blanks between its parts, and its failures. -/
inductive Spacing where
  /-- Blanks are skipped if the caller skips them. -/
  | spaced
  /-- Blanks are not skipped; failures of the rule and of the rules below it are reported. -/
  | joined
  /-- Blanks are not skipped; the rules below are a detail, and their failures are not reported. -/
  | token
  deriving DecidableEq, Repr

namespace Spacing

/-- The spacing in which the body of a rule runs when it is called from `caller`. -/
def inside (caller : Spacing) : Spacing → Spacing
  | spaced => caller
  | joined => joined
  | token => token

/-- Whether a rule called from `caller` reports its own failure. -/
def reports (caller : Spacing) : Spacing → Bool
  | joined => true
  | spaced | token => caller != token

end Spacing

/-- A place in a text: the number of characters before it, and the characters from it on. -/
structure Cursor where
  offset : Nat
  rest : List Char
  deriving DecidableEq, Repr

namespace Cursor

def ofText (text : List Char) : Cursor := ⟨0, text⟩

/-- The text from a place on, up to the given offset. -/
def textUntil (start : Cursor) (stop : Nat) : List Char :=
  start.rest.take (stop - start.offset)

end Cursor

/-- A match of a rule: where it starts, the offset at which it ends, and the matches inside it. -/
inductive Tree (R : Type) where
  | node (rule : R) (start : Cursor) (stop : Nat) (children : List (Tree R))

namespace Tree

variable {R : Type}

def rule : Tree R → R
  | node rule _ _ _ => rule

def offset : Tree R → Nat
  | node _ start _ _ => start.offset

/-- The matches directly inside this one, in text order. -/
def children : Tree R → List (Tree R)
  | node _ _ _ children => children

def characters : Tree R → List Char
  | node _ start stop _ => start.textUntil stop

def text (tree : Tree R) : String := String.ofList tree.characters

variable [BEq R]

/-- The first match of `rule` among the given ones. -/
def find? (rule : R) (trees : List (Tree R)) : Option (Tree R) :=
  trees.find? (·.rule == rule)

/-- The text of the first match of `rule` among the given ones. -/
def textOf? (rule : R) (trees : List (Tree R)) : Option String :=
  (find? rule trees).map text

/-- The children of the first match of `rule` among the given ones, or none of them. -/
def inside (rule : R) (trees : List (Tree R)) : List (Tree R) :=
  ((find? rule trees).map children).getD []

end Tree

/-- A grammar over the rules `R`. -/
structure Grammar (R : Type) where
  /-- What a rule matches. -/
  body : R → Peg R
  /-- How a rule treats blanks and failures. -/
  spacing : R → Spacing
  /-- Skips the blanks at a place. -/
  skip : Cursor → Cursor
  /-- A rule may call another without reading a character only if the other has a lower rank. -/
  rank : R → Nat
  /-- A number above all ranks. -/
  ranks : Nat

end PreviewLint
