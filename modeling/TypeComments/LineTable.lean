import TypeComments.Line
import TypeComments.Location

/-! Line lookups by byte offset. A table is built from one text; its questions about texts take the
text as an argument, which may be another one, and an offset that does not fit that text reads as
the empty text. -/

namespace TypeComments

structure LineTable where
  /-- The offset at which each line starts, ascending from 0. -/
  starts : List Nat
  size : Nat
  deriving DecidableEq, Repr

namespace LineTable

def ofText (source : Text) : LineTable := ⟨(lines source).map Line.start, Text.size source⟩

def lineCount (table : LineTable) : Nat := table.starts.length

/-- The number of the line an offset is on: the last line that starts at or before it. -/
def lineIndex (table : LineTable) (offset : Nat) : Nat := table.starts.countP (· ≤ offset) - 1

def lineStart? (table : LineTable) (k : Nat) : Option Nat := table.starts[k]?

def lineStop? (table : LineTable) (text : Text) (k : Nat) : Option Nat :=
  (table.lineStart? k).map fun start =>
    let stop := ((table.lineStart? (k + 1)).map (· - 1)).getD table.size
    if start < stop ∧ Text.charAt? text (stop - 1) = some '\r' then stop - 1 else stop

def lineText (table : LineTable) (text : Text) (k : Nat) : Text :=
  match table.lineStart? k, table.lineStop? text k with
  | some start, some stop => (Text.slice? text start stop).getD []
  | _, _ => []

/-- The line and column of an offset; columns count characters. -/
def location (table : LineTable) (text : Text) (offset : Nat) : Location :=
  let k := table.lineIndex offset
  let start := (table.lineStart? k).getD 0
  let before := (Text.slice? text start (min offset (Text.size text))).getD []
  ⟨k + 1, before.length + 1⟩

theorem ofText_lineStart? (source : Text) (k : Nat) :
    (ofText source).lineStart? k = (lines source)[k]?.map Line.start := by
  simp [ofText, lineStart?]

end LineTable
end TypeComments
