/-! Places in a file as people count them: lines and columns from 1. Locations are ordered by line
and then by column. -/

namespace TypeComments

structure Location where
  line : Nat
  column : Nat
  deriving DecidableEq, Inhabited, Repr

namespace Location

def startOfLine (k : Nat) : Location := ⟨k + 1, 1⟩

def le (a b : Location) : Bool := a.line < b.line || (a.line == b.line && a.column ≤ b.column)

theorem le_iff {a b : Location} :
    a.le b = true ↔ a.line < b.line ∨ a.line = b.line ∧ a.column ≤ b.column := by
  simp [le]

theorem le_trans {a b c : Location} (hab : a.le b = true) (hbc : b.le c = true) :
    a.le c = true := by
  rw [le_iff] at *
  omega

theorem le_total (a b : Location) : (a.le b || b.le a) = true := by
  rw [Bool.or_eq_true, le_iff, le_iff]
  omega

theorem le_antisymm {a b : Location} (hab : a.le b = true) (hba : b.le a = true) : a = b := by
  rw [le_iff] at hab hba
  cases a; cases b
  simp only [mk.injEq] at *
  omega

def sort (ls : List Location) : List Location := ls.mergeSort le

protected def toString (l : Location) : String := s!"{l.line}:{l.column}"

instance : ToString Location := ⟨Location.toString⟩

end Location
end TypeComments
