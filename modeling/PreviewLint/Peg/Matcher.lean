import PreviewLint.Peg.Basic

/-!
# Matching a grammar against a text

The matcher answers with the matched trees and the place after them, or with a
failure. In both cases it also tells the furthest offset at which a rule was
tried in vain, since that is where a reader should look when the text as a
whole does not match.

A rule that fails is noted at the offset where it was tried. Under a negative
lookahead the roles are swapped: there a rule that *matches* is what keeps the
text from matching. Rules below a `token` rule are not noted.

A repetition is tried once more than there are characters left, so that its last
attempt, which is in vain, is noted too.

The matcher ends because a call may only go to a place further on, or to a rule
of lower rank at the same place: `Grammar.weight` falls with every call. A call
that does neither would not end, and counts as a failure.
-/

namespace PreviewLint

variable {R : Type}

/-- What matching an expression at a place gives. -/
structure Outcome (R : Type) where
  /-- The furthest offset at which a rule was tried in vain. -/
  furthest : Nat
  /-- The matched trees and the place after them. -/
  result : Option (List (Tree R) × Cursor)

namespace Outcome

/-- A match that tried no rule in vain. -/
def success (trees : List (Tree R)) (cursor : Cursor) : Outcome R := ⟨0, some (trees, cursor)⟩

/-- A failure that tried no rule in vain. -/
def failure : Outcome R := ⟨0, none⟩

/-- The same result, with another offset at which a rule was tried in vain. -/
def noting (offset : Nat) (outcome : Outcome R) : Outcome R :=
  { outcome with furthest := max offset outcome.furthest }

/-- Goes on from a match with `next`, and keeps the trees of both. -/
def andThen (outcome : Outcome R) (next : Cursor → Outcome R) : Outcome R :=
  match outcome.result with
  | none => outcome
  | some (trees, cursor) =>
    let following := (next cursor).noting outcome.furthest
    { following with result := following.result.map fun (more, stop) => (trees ++ more, stop) }

/-- Tries `other` after a failure. -/
def orElse (outcome : Outcome R) (other : Unit → Outcome R) : Outcome R :=
  match outcome.result with
  | none => (other ()).noting outcome.furthest
  | some _ => outcome

end Outcome

namespace Peg

/-- Matches `step` as often as possible, and at most `count` times. -/
def repeated (step : Cursor → Outcome R) : Nat → Cursor → Outcome R
  | 0, cursor => .success [] cursor
  | count + 1, cursor =>
    ((step cursor).andThen (repeated step count)).orElse fun _ => .success [] cursor

/--
Matches an expression at a place. Rules are matched by `call`, which is given for
calls of a weight below `bound` only.
-/
def run (skip : Cursor → Cursor) (size : Nat) (weight : R → Cursor → Nat) (bound : Nat)
    (call : (rule : R) → Spacing → Bool → (cursor : Cursor) → weight rule cursor < bound →
      Outcome R)
    (spacing : Spacing) (negated : Bool) : Peg R → Cursor → Outcome R
  | .empty, cursor => .success [] cursor
  | .char accepts, cursor =>
    match cursor.rest with
    | [] => .failure
    | character :: rest =>
      if accepts character then .success [] ⟨cursor.offset + 1, rest⟩ else .failure
  | .word text, cursor =>
    if text.toList.isPrefixOf cursor.rest then
      .success [] ⟨cursor.offset + text.length, cursor.rest.drop text.length⟩
    else .failure
  | .rule name, cursor =>
    if lower : weight name cursor < bound then call name spacing negated cursor lower
    else .failure
  | .seq first second, cursor =>
    (run skip size weight bound call spacing negated first cursor).andThen fun middle =>
      run skip size weight bound call spacing negated second
        (if spacing = .spaced then skip middle else middle)
  | .choice first second, cursor =>
    (run skip size weight bound call spacing negated first cursor).orElse fun _ =>
      run skip size weight bound call spacing negated second cursor
  | .maybe body, cursor =>
    (run skip size weight bound call spacing negated body cursor).orElse fun _ =>
      .success [] cursor
  | .many body, cursor =>
    let step := run skip size weight bound call spacing negated body
    let next := fun middle => step (if spacing = .spaced then skip middle else middle)
    ((step cursor).andThen fun middle =>
        repeated next (size - middle.offset + 1) middle).orElse fun _ =>
      .success [] cursor
  | .absent body, cursor =>
    let outcome := run skip size weight bound call spacing (!negated) body cursor
    match outcome.result with
    | none => ⟨outcome.furthest, some ([], cursor)⟩
    | some _ => ⟨outcome.furthest, none⟩

end Peg

namespace Grammar

variable (grammar : Grammar R)

/-- Falls when characters are read, and with the rank of a rule called at the same place. -/
def weight (size : Nat) (rule : R) (cursor : Cursor) : Nat :=
  (size - cursor.offset) * grammar.ranks + grammar.rank rule

/--
Matches a rule at a place of a text of `size` characters. `caller` is the spacing in
which the rule is called, and `negated` tells whether the call stands under an odd
number of negative lookaheads.
-/
def call (size : Nat) (rule : R) (caller : Spacing) (negated : Bool) (cursor : Cursor) :
    Outcome R :=
  let spacing := grammar.spacing rule
  let outcome :=
    (grammar.body rule).run grammar.skip size (grammar.weight size)
      (grammar.weight size rule cursor)
      (fun name inner negation place _ => call size name inner negation place)
      (caller.inside spacing) negated cursor
  let noted :=
    if caller.reports spacing && (outcome.result.isNone != negated) then
      outcome.noting cursor.offset
    else outcome
  { noted with
    result := noted.result.map fun (children, stop) =>
      ([.node rule cursor stop.offset (if spacing = .token then [] else children)], stop) }
termination_by grammar.weight size rule cursor

/--
Matches a whole text by a rule. The answer to a text that does not match is the
furthest offset at which a rule was tried in vain.
-/
def parse (start : R) (text : List Char) : Except Nat (Tree R) :=
  let outcome := grammar.call text.length start .spaced false (.ofText text)
  match outcome.result with
  | some (tree :: _, _) => .ok tree
  | _ => .error outcome.furthest

end Grammar

end PreviewLint
