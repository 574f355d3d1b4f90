import TypeComments.LineTable.Numbers
import TypeComments.Proofs.LineTable.Search
import TypeComments.Proofs.Text.Bytes

/-! How the table of a text divides it. An offset is on the line whose number is the number of line
feeds before it, and the texts of the lines, each with what ends it, are the text. Up to a size of
`UInt32.size - 2` bytes the lookups do with numbers of 32 bits; one line feed more is one too many.
-/

namespace TypeComments

namespace LineTable

end LineTable
end TypeComments
