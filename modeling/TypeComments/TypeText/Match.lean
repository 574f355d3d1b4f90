import TypeComments.Assertion.Basic
import TypeComments.TypeText.Gaps
import TypeComments.TypeText.ReadonlyArray

/-! When an actual type text meets an expected one. -/

namespace TypeComments
namespace TypeText

/-- Assertions on lines want the same text, up to the spelling of read-only arrays; carets want the
same text up to gaps. -/
def meets : AssertionKind → (actual expected : Text) → Bool
  | .manual, actual, expected | .snapshot, actual, expected =>
    actual == expected || matchesReadonlyArray actual expected
  | .caret, actual, expected => normalize actual == normalize expected

theorem meets_self (kind : AssertionKind) (t : Text) : meets kind t t = true := by
  cases kind <;> simp [meets]

end TypeText
end TypeComments
