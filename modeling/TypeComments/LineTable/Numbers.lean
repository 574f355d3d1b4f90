import TypeComments.LineTable

/-! Line lookups with numbers of 32 bits. The lookups of a table have numbers without a bound; here
each sum that one of them takes is told to have 32 bits, or the lookup overflows. An overflow stops
a program that checks its sums, and lets one that does not go on from 0. -/

namespace TypeComments

structure Overflow where
  deriving DecidableEq, Repr

namespace LineTable

def next (n : Nat) : Except Overflow Nat := if n + 1 < UInt32.size then .ok (n + 1) else .error ⟨⟩

/-- The offset where line `k` ends. If there is such a line, the next one is looked up by its
number. -/
def checkedStop (table : LineTable) (text : Text) (k : Nat) : Except Overflow (Option Nat) :=
  match table.lineStart? k with
  | none => .ok none
  | some _ => (next k).map fun _ => table.lineStop? text k

def checkedText (table : LineTable) (text : Text) (k : Nat) : Except Overflow Text :=
  (table.checkedStop text k).map fun _ => table.lineText text k

/-- The line and column of an offset. A count of characters that itself has more than 32 bits gives
the last column there is. -/
def checkedLocation (table : LineTable) (text : Text) (offset : Nat) :
    Except Overflow Location := do
  let k := table.lineIndex offset
  let start := (table.lineStart? k).getD 0
  let before := (Text.slice? text start (min offset (Text.size text))).getD []
  let column ← next (if before.length < UInt32.size then before.length else UInt32.size - 2)
  let line ← next k
  return ⟨line, column⟩

end LineTable
end TypeComments
