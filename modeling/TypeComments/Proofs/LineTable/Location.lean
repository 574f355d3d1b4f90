import Mathlib.Data.List.DropRight
import TypeComments.Proofs.LineTable.Partition

/-! Lines and columns as a way to write offsets. At a boundary between characters the line counts
the line feeds before it and the column the characters behind the last of them, so that the offset
can be found again from the start of the line. -/

namespace TypeComments

namespace Text

def lastLine (t : Text) : Text := t.rtakeWhile (· ≠ '\n')

end Text

namespace LineTable

end LineTable
end TypeComments
