import TypeComments.Fix
import TypeComments.Tree.Basic

/-! What a check of a file found. -/

namespace TypeComments

inductive Expectation
  | line (line : Nat) (assertion : TypeAssertion)
  | caret (caret : CaretAssertion)
  deriving DecidableEq, Repr

inductive Reason
  | typeMismatch | snapshotNotFound | snapshotMismatch
  deriving DecidableEq, Repr

/-- An expectation that the type found does not meet. -/
structure Unmet where
  expectation : Expectation
  node : NodeId
  actual : Text
  fix : Option Fix
  deriving DecidableEq, Repr

namespace Unmet

def reason (u : Unmet) : Reason :=
  match u.expectation with
  | .line _ (.snapshot _ none) => .snapshotNotFound
  | .line _ (.snapshot _ (some _)) => .snapshotMismatch
  | .line _ (.manual _) => .typeMismatch
  | .caret _ => .typeMismatch

/-- The expected text; a snapshot that was never stored has none. -/
def expected? (u : Unmet) : Option Text :=
  match u.expectation with
  | .line _ assertion => assertion.expected?
  | .caret caret => some caret.expected

end Unmet

/-- Lines are numbered from 0. -/
structure Findings where
  unmet : List Unmet := []
  orphanLines : List Nat := []
  duplicateLines : List Nat := []
  missingErrorLines : List Nat := []
  mistakes : List MistakeAt := []
  deriving DecidableEq, Repr

namespace Findings

def isEmpty (f : Findings) : Bool :=
  f.unmet.isEmpty && f.orphanLines.isEmpty && f.duplicateLines.isEmpty &&
    f.missingErrorLines.isEmpty && f.mistakes.isEmpty

theorem isEmpty_iff {f : Findings} : f.isEmpty = true ↔ f = {} := by
  cases f
  simp [isEmpty, and_assoc]

end Findings
end TypeComments
