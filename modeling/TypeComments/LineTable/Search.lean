import TypeComments.LineTable

/-! Finding the line of an offset by halving the table. -/

namespace TypeComments
namespace LineTable

end LineTable
end TypeComments
