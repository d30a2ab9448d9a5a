import PreviewLint.GraphQL.Grammar

/-!
# String literals

A string literal stands between quotes and has escapes, or between triple quotes
and has none. The second kind is a block string. Its lines lose the indentation
that all of them share, the first line apart, and blank lines at its beginning
and end are dropped. Three quotes inside a block string are written after a
backslash, which stays.
-/

namespace PreviewLint.GraphQL

namespace BlockString

def lines : List Char → List (List Char)
  | [] => [[]]
  | '\r' :: '\n' :: rest => [] :: lines rest
  | character :: rest =>
    if isLineEnd character then [] :: lines rest
    else
      match lines rest with
      | line :: more => (character :: line) :: more
      | [] => [[character]]

def isIndent (character : Char) : Bool := character == ' ' || character == '\t'

def isBlankLine (line : List Char) : Bool := line.all isIndent

/-- The least indentation of the lines that are not blank. -/
def commonIndent (lines : List (List Char)) : Nat :=
  let indents := (lines.filter fun line => !isBlankLine line).map fun line =>
    (line.takeWhile isIndent).length
  indents.min?.getD 0

/-- Drops the indentation of a line that is long enough. -/
def unindented (indent : Nat) (line : List Char) : List Char :=
  if indent ≤ line.length then line.drop indent else line

def trimmed (lines : List (List Char)) : List (List Char) :=
  ((lines.dropWhile isBlankLine).reverse.dropWhile isBlankLine).reverse

/-- The value of a block string with the given characters between its quotes. -/
def value (content : List Char) : List Char :=
  let first := (lines content).take 1
  let others := (lines content).drop 1
  List.intercalate ['\n'] (trimmed (first ++ others.map (unindented (commonIndent others))))

end BlockString

/-- The text that a string literal stands for. -/
def stringValue (literal : List Char) : String :=
  if "\"\"\"".toList.isPrefixOf literal then
    String.ofList (BlockString.value ((literal.drop 3).take (literal.length - 6)))
  else String.ofList (Escape.decode (literal.drop 1).dropLast)

end PreviewLint.GraphQL
