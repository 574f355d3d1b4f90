import TypeComments.Assertion.Basic
import TypeComments.Comment.Scan
import TypeComments.Directive

/-! Assertions by offsets. The comments that a scan finds are read one after the other; for a caret,
a line table leads to the line above and to those below. -/

namespace TypeComments

namespace CaretAssertion

/-- Read on from line `next`, as long as the lines start with the margin: what follows it belongs to
the expected text, and the end of the line to the range. -/
def readOn (source : Text) (table : LineTable) (margin : Text) (next : Nat) (expected : Text)
    (range : Span) : Text × Span :=
  match _hstop : table.lineStop? source next with
  | none => (expected, range)
  | some stop =>
    match Text.strip? margin (table.lineText source next) with
    | none => (expected, range)
    | some rest =>
      readOn source table margin (next + 1) (expected ++ '\n' :: rest) (range.extendTo stop)
termination_by table.lineCount - next
decreasing_by
  obtain ⟨start, hstart, -⟩ := Option.map_eq_some_iff.1 _hstop
  have hlt : next < table.lineCount := (List.getElem?_eq_some_iff.1 hstart).1
  omega

/-- The assertion of a caret that stands after `indent` spaces in a comment; `rest` is what follows
`^?`. Columns count characters. -/
def ofOccurrence (source : Text) (table : LineTable) (o : Occurrence) (indent : Nat)
    (rest : Text) : CaretAssertion :=
  if o.line = 0 then unattachable o.line
  else
    let lineStart := (table.lineStart? o.line).getD 0
    let lineStop := (table.lineStop? source o.line).getD lineStart
    let caret := o.start + 2 + indent
    let lead := (Text.slice? source lineStart caret).getD []
    let above := table.lineText source (o.line - 1)
    let margin := lead ++ "   ".toList
    let read := readOn source table margin (o.line + 1) (rest.drop 1)
      (if rest = [] then Span.point (caret + 2) else ⟨caret + 3, lineStop⟩)
    { position := (table.lineStart? (o.line - 1)).bind fun start =>
        if lead.length < above.length then some (start + Text.size (above.take lead.length))
        else none
      line := o.line
      expected := read.1
      range := read.2
      margin := margin
      needsSpace := rest.isEmpty }

end CaretAssertion

namespace Assertions

def addOccurrence (source : Text) (table : LineTable) (a : Assertions) (o : Occurrence) :
    Assertions :=
  match Directive.ofBody? o.body with
  | none => a
  | some (.expectType (some expected)) => a.insertType o.subject (.manual expected)
  | some (.expectType none) => a.addMistake .missingType o.subject
  | some (.expectTypeSnapshot (some name)) => a.insertType o.subject (.snapshot name none)
  | some (.expectTypeSnapshot none) => a.addMistake .missingSnapshotName o.subject
  | some .expectError => a.insertError o.subject
  | some (.caret indent rest) =>
    if rest = [] ∨ rest.head? = some ' ' then
      a.addCaret (CaretAssertion.ofOccurrence source table o indent rest)
    else a.addMistake .caretSpacing o.subject

/-- Everything the comments of a source assert, if a scan with the table ends. -/
def parse (source : Text) (table : LineTable) : Option Assertions :=
  (Occurrence.scan source table).map fun os => os.foldl (addOccurrence source table) {}

end Assertions
end TypeComments
