import TypeComments.Assertion.Basic
import TypeComments.Snapshot.Update

/-! Ways to make an assertion hold: replace the text below a caret, or store a new snapshot. -/

namespace TypeComments

namespace CaretAssertion

/-- A text as it is written below a caret: every line after the first starts with the margin. -/
def indented (margin : Text) (t : Text) : Text :=
  t.flatMap fun c => if c = '\n' then '\n' :: margin else [c]

def replacement (caret : CaretAssertion) (actual : Text) : TextEdit :=
  ⟨caret.range, (if caret.needsSpace then [' '] else []) ++ indented caret.margin actual⟩

@[simp] theorem indented_nil (margin : Text) : indented margin [] = [] := rfl

@[simp] theorem indented_append (margin a b : Text) :
    indented margin (a ++ b) = indented margin a ++ indented margin b := by
  simp [indented]

theorem indented_of_not_mem {margin t : Text} (h : '\n' ∉ t) : indented margin t = t := by
  induction t with
  | nil => rfl
  | cons c t ih =>
    simp only [List.mem_cons, not_or] at h
    have hc : c ≠ '\n' := Ne.symm h.1
    have ht : indented margin t = t := ih h.2
    simp only [indented, List.flatMap_cons, if_neg hc] at ht ⊢
    rw [ht]
    rfl

end CaretAssertion

inductive Fix
  | replaceText (edit : TextEdit)
  | updateSnapshot (update : SnapshotUpdate)
  deriving DecidableEq, Repr

namespace Fix

def edit : Fix → TextEdit
  | replaceText edit => edit
  | updateSnapshot update => update.edit

end Fix
end TypeComments
