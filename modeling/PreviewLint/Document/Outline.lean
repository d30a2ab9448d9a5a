import PreviewLint.GraphQL.Grammar

/-!
# The outline of a text

A text may mix executable and type-system definitions. The outline of a text
tells the two apart without matching the grammar: it cuts the text into sections,
each of which begins where a definition seems to begin, and says of which kind it
is. What stands before the first section is leading text.

From an outline the text is split into two halves. A half holds the leading text
and the sections of its kind; the other sections are blanked, so that every
character of a half stands where it stands in the text.

The text is first cut into lexemes: comments, strings, names, and single
characters for everything else. A lexeme is a piece of the text, and nothing
between two lexemes is lost. A scan over the lexemes then finds the sections.
-/

namespace PreviewLint.Outline

open GraphQL

/-- The characters of a quoted string after its opening quote. A line feed ends the string. -/
def quotedLength : List Char → Nat
  | '\\' :: _ :: rest => quotedLength rest + 2
  | '"' :: _ => 1
  | '\n' :: _ => 0
  | _ :: rest => quotedLength rest + 1
  | [] => 0

/-- The characters of a block string after its opening quotes. -/
def blockLength : List Char → Nat
  | '\\' :: '"' :: '"' :: '"' :: rest => blockLength rest + 4
  | '"' :: '"' :: '"' :: _ => 3
  | _ :: rest => blockLength rest + 1
  | [] => 0

/-- The characters of a string that follow its first quote. -/
def stringLength : List Char → Nat
  | '"' :: '"' :: rest => blockLength rest + 2
  | rest => quotedLength rest

/-- The number of characters that belong to a lexeme after its first character. -/
def tailLength (first : Char) (rest : List Char) : Nat :=
  if first == '#' then (rest.takeWhile (· != '\n')).length
  else if first == '"' then stringLength rest
  else if isNameStart first then (rest.takeWhile isNamePart).length
  else 0

def lexemes : List Char → List (List Char)
  | [] => []
  | first :: rest =>
    (first :: rest.take (tailLength first rest)) :: lexemes (rest.drop (tailLength first rest))
termination_by text => text.length
decreasing_by
  simp only [List.length_drop, List.length_cons]
  omega

inductive Kind where
  | executable
  | typeSystem
  deriving DecidableEq, Repr

/-- The kind of definition that a keyword begins. -/
def kindOf? (keyword : String) : Option Kind :=
  if ["query", "mutation", "subscription", "fragment"].contains keyword then some .executable
  else if ["schema", "scalar", "type", "interface", "union", "enum", "input", "directive",
      "extend"].contains keyword then
    some .typeSystem
  else none

/-- What is known of the section that is being read. -/
structure Heading where
  kind : Kind
  /-- A description was read, and the keyword is still to come. -/
  described : Bool := false
  /-- The next name is that of the definition, or the keyword after `extend`. -/
  expectsName : Bool := false
  /-- An opening brace begins the body of the definition. -/
  acceptsBody : Bool := true
  /-- The body of the definition has ended. -/
  bodyClosed : Bool := false
  deriving DecidableEq, Repr

namespace Heading

/-- The heading after its keyword was read. Some definitions have no body in braces. -/
def withKeyword (heading : Heading) (keyword : String) : Heading :=
  { heading with
    described := false
    expectsName := true
    acceptsBody := !(["scalar", "union", "directive"].contains keyword) }

/-- The heading after something that cannot precede the name of a definition. -/
def withoutName (heading : Heading) : Heading := { heading with expectsName := false }

end Heading

/-- The state of the scan: how many brackets are open, and what is known of the section. -/
structure Scan where
  depth : Nat := 0
  heading : Option Heading := none
  deriving DecidableEq, Repr

/-- What a lexeme does: the state after it, and whether it begins a section. -/
structure Step where
  scan : Scan
  begins : Bool
  deriving DecidableEq, Repr

namespace Scan

/-- Stays in the section that is being read. -/
def stay (scan : Scan) : Step := ⟨scan, false⟩

def begin (scan : Scan) (heading : Heading) : Step := ⟨{ scan with heading := some heading }, true⟩

/-- Changes what is known of the section that is being read. -/
def amend (scan : Scan) (change : Heading → Heading) : Scan :=
  { scan with heading := scan.heading.map change }

/-- A string outside of brackets describes the definition that follows it. -/
def onString (scan : Scan) : Step :=
  if scan.depth = 0 && !scan.heading.any (·.described) then
    scan.begin { kind := .typeSystem, described := true }
  else scan.stay

/--
A brace outside of brackets begins the body of the definition that is being read, or a query
that consists of its body.
-/
def onOpening (scan : Scan) (brace : Bool) : Step :=
  let deeper := { scan with depth := scan.depth + 1 }
  if scan.depth = 0 then
    if brace && !scan.heading.any (fun heading => heading.acceptsBody && !heading.bodyClosed) then
      deeper.begin { kind := .executable }
    else (deeper.amend Heading.withoutName).stay
  else deeper.stay

/-- The brace that closes the last bracket ends the body of the definition. -/
def onClosing (scan : Scan) (brace : Bool) : Step :=
  let closed := { scan with depth := scan.depth - 1 }
  if closed.depth = 0 && brace then
    (closed.amend fun heading => { heading with bodyClosed := true }).stay
  else closed.stay

/--
A name outside of brackets is the keyword of a described definition, or the name of a
definition, or a keyword that begins a section; other names do nothing.
-/
def onName (scan : Scan) (name : String) : Step :=
  if scan.depth = 0 then
    if scan.heading.any (·.described) then (scan.amend (·.withKeyword name)).stay
    else if scan.heading.any (·.expectsName) then (scan.amend Heading.withoutName).stay
    else
      match kindOf? name with
      | some kind => scan.begin (Heading.withKeyword { kind } name)
      | none => scan.stay
  else scan.stay

/-- Characters that may stand between a keyword and the name of a definition. -/
def isGap (character : Char) : Bool :=
  character == ' ' || character == '\t' || character == '\n' || character == '\x0c' ||
    character == '\r' || character == ','

/-- Any other character outside of brackets cannot precede the name of a definition. -/
def onMark (scan : Scan) (character : Char) : Step :=
  if scan.depth = 0 && !isGap character then (scan.amend Heading.withoutName).stay
  else scan.stay

def step (scan : Scan) (lexeme : List Char) : Step :=
  match lexeme with
  | [] => scan.stay
  | first :: _ =>
    if first == '#' then scan.stay
    else if first == '"' then scan.onString
    else if first == '{' || first == '(' || first == '[' then scan.onOpening (first == '{')
    else if first == '}' || first == ')' || first == ']' then scan.onClosing (first == '}')
    else if isNameStart first then scan.onName (String.ofList lexeme)
    else scan.onMark first

end Scan

/-- A piece of the text that begins with a definition. -/
structure Section where
  kind : Kind
  text : List Char
  deriving DecidableEq, Repr

/-- The sections that begin in some lexemes, and the text before the first of them. -/
def sectionsFrom (scan : Scan) : List (List Char) → List Char × List Section
  | [] => ([], [])
  | lexeme :: rest =>
    let next := scan.step lexeme
    let (pending, sections) := sectionsFrom next.scan rest
    match next.begins, next.scan.heading with
    | true, some heading => ([], ⟨heading.kind, lexeme ++ pending⟩ :: sections)
    | _, _ => (lexeme ++ pending, sections)

end Outline

/-- The sections of a text, and the text before the first of them. -/
structure Outline where
  leading : List Char
  sections : List Outline.Section
  deriving DecidableEq, Repr

namespace Outline

def ofText (text : List Char) : Outline :=
  let (leading, sections) := sectionsFrom {} (lexemes text)
  ⟨leading, sections⟩

/-- Blanks a text, apart from its line ends. -/
def blanked (text : List Char) : List Char :=
  text.map fun character => if GraphQL.isLineEnd character then character else ' '

/-- The sections of one kind, with everything else but the leading text blanked. -/
def half (outline : Outline) (kind : Kind) : List Char :=
  outline.leading ++ outline.sections.flatMap fun part =>
    if part.kind = kind then part.text else blanked part.text

def has (outline : Outline) (kind : Kind) : Bool := outline.sections.any (·.kind == kind)

end Outline

end PreviewLint
