import TypeComments.Comment
import TypeComments.LineTable
import TypeComments.Text.Bytes

/-! Comments by offsets. A scan looks for the next `//` among the bytes of a source, asks a line
table which line that is on, and goes on where the next line starts. -/

namespace TypeComments

/-- A comment as a scan finds it. -/
structure Occurrence where
  body : Text
  start : Nat
  subject : Nat
  line : Nat
  deriving DecidableEq, Repr

namespace Occurrence

/-- The comment that opens at `start`. Parts of the source that the table does not lead to are read
as empty. -/
def atOffset (source : Text) (table : LineTable) (start : Nat) : Occurrence :=
  let line := table.lineIndex start
  let lineStart := (table.lineStart? line).getD 0
  let lineStop := (table.lineStop? source line).getD (Text.size source)
  let before := (Text.slice? source lineStart start).getD []
  { body := (Text.slice? source (start + 2) lineStop).getD []
    start := start
    subject := if Text.trim before = [] then line + 1 else line
    line := line }

/-- The comments from the offset `pos` on. There is no result if the table leads behind the end of
the source, as that of another text can, or not forward. -/
def scanFrom (source : Text) (table : LineTable) (pos : Nat) : Option (List Occurrence) :=
  if pos ≤ Text.size source then
    match _hfind : Text.find? Comment.opener source pos with
    | none => some []
    | some start =>
      let occurrence := atOffset source table start
      match table.lineStart? (occurrence.line + 1) with
      | none => some [occurrence]
      | some next =>
        if start < next then (scanFrom source table next).map (occurrence :: ·) else none
  else none
termination_by Text.size source + 1 - pos
decreasing_by
  have hle := Text.le_of_find? _hfind
  omega

def scan (source : Text) (table : LineTable) : Option (List Occurrence) := scanFrom source table 0

end Occurrence
end TypeComments
