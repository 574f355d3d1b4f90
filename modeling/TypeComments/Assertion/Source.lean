import TypeComments.Assertion.Basic
import TypeComments.Comment
import TypeComments.Directive

/-! The assertions written in a source text. The lines are read once from top to bottom, each with
the line above it, at which a caret points, and the lines below it, on which the expected text of a
caret may go on. -/

namespace TypeComments

namespace CaretAssertion

/-- The further lines of an expected text: those that start with `margin`, as long as they follow
one another, each as the line and what comes after the margin. -/
def continuation (margin : Text) : List Line → List (Line × Text)
  | [] => []
  | l :: below =>
    match Text.strip? margin l.text with
    | some rest => (l, rest) :: continuation margin below
    | none => []

def pointAt (above : Line) (column : Nat) : Option Nat :=
  if column < above.text.length then some (above.start + Text.size (above.text.take column))
  else none

theorem pointAt_eq_some_iff {above : Line} {column p : Nat} :
    pointAt above column = some p ↔
      column < above.text.length ∧ p = above.start + Text.size (above.text.take column) := by
  unfold pointAt
  split
  · rename_i h
    simp [h, eq_comm]
  · rename_i h
    simp [h]

/-- The assertion of a caret that stands after `indent` spaces in the comment `c`; `rest` is what
follows `^?`. -/
def ofComment (above : Option Line) (c : Comment) (indent : Nat) (rest : Text)
    (below : List Line) : CaretAssertion :=
  match above with
  | none => unattachable c.line.number
  | some above =>
    let lead := c.before ++ Comment.opener ++ List.replicate indent ' '
    let margin := lead ++ "   ".toList
    let further := continuation margin below
    let caret := c.line.start + Text.size lead
    { position := pointAt above lead.length
      line := c.line.number
      expected := rest.drop 1 ++ further.flatMap fun p => '\n' :: p.2
      range := ⟨if rest = [] then caret + 2 else caret + 3,
        ((further.getLast?.map Prod.fst).getD c.line).stop⟩
      margin := margin
      needsSpace := rest.isEmpty }

end CaretAssertion

namespace Assertions

def addDirective (a : Assertions) (above : Option Line) (c : Comment) (below : List Line) :
    Directive → Assertions
  | .expectType (some expected) => a.insertType c.subject (.manual expected)
  | .expectType none => a.addMistake .missingType c.subject
  | .expectTypeSnapshot (some name) => a.insertType c.subject (.snapshot name none)
  | .expectTypeSnapshot none => a.addMistake .missingSnapshotName c.subject
  | .expectError => a.insertError c.subject
  | .caret indent rest =>
    if rest = [] ∨ rest.head? = some ' ' then
      a.addCaret (CaretAssertion.ofComment above c indent rest below)
    else a.addMistake .caretSpacing c.subject

def addLine (a : Assertions) (above : Option Line) (l : Line) (below : List Line) : Assertions :=
  match Comment.ofLine? l with
  | none => a
  | some c =>
    match Directive.ofBody? c.body with
    | none => a
    | some directive => a.addDirective above c below directive

def addLines (a : Assertions) (above : Option Line) : List Line → Assertions
  | [] => a
  | l :: below => addLines (a.addLine above l below) (some l) below

/-- Everything the comments of a source text assert. -/
def ofSource (source : Text) : Assertions := addLines {} none (lines source)

end Assertions
end TypeComments
