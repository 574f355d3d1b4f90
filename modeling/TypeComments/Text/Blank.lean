import TypeComments.Text.Basic

/-!
# Blank characters

A character is blank when Unicode gives it the property `White_Space`. The table lists the code
points in ascending ranges. `trim` removes the blanks at both ends of a text.
-/

namespace TypeComments
namespace Text

/-- The code points with the property `White_Space`, as inclusive ranges. -/
def blankRanges : List (Nat × Nat) :=
  [(0x09, 0x0D), (0x20, 0x20), (0x85, 0x85), (0xA0, 0xA0), (0x1680, 0x1680), (0x2000, 0x200A),
   (0x2028, 0x2029), (0x202F, 0x202F), (0x205F, 0x205F), (0x3000, 0x3000)]

def isBlank (c : Char) : Bool := blankRanges.any fun r => r.1 ≤ c.toNat && c.toNat ≤ r.2

example : (blankRanges.map fun r => r.2 + 1 - r.1).sum = 25 := by decide

def allBlank (t : Text) : Bool := t.all isBlank

@[simp] theorem allBlank_append (a b : Text) : allBlank (a ++ b) = (allBlank a && allBlank b) := by
  simp [allBlank]

def trimStart (t : Text) : Text := t.dropWhile isBlank

def trimEnd (t : Text) : Text := (t.reverse.dropWhile isBlank).reverse

def trim (t : Text) : Text := trimEnd (trimStart t)

theorem trimStart_eq_nil_iff {t : Text} : trimStart t = [] ↔ allBlank t = true := by
  induction t with
  | nil => simp [trimStart, allBlank]
  | cons c t ih =>
    by_cases h : isBlank c <;> simp_all [trimStart, allBlank]

theorem trimEnd_eq_nil_iff {t : Text} : trimEnd t = [] ↔ allBlank t = true := by
  rw [trimEnd, List.reverse_eq_nil_iff, ← trimStart, trimStart_eq_nil_iff]
  simp [allBlank]

theorem eq_append_trimStart (t : Text) :
    ∃ lead, allBlank lead = true ∧ t = lead ++ trimStart t :=
  ⟨t.takeWhile isBlank, by simp [allBlank, List.all_takeWhile],
    (List.takeWhile_append_dropWhile).symm⟩

theorem eq_trimEnd_append (t : Text) :
    ∃ tail, allBlank tail = true ∧ t = trimEnd t ++ tail := by
  refine ⟨(t.reverse.takeWhile isBlank).reverse, by simp [allBlank, List.all_takeWhile], ?_⟩
  rw [trimEnd, ← List.reverse_append, List.takeWhile_append_dropWhile, List.reverse_reverse]

theorem trim_eq_nil_iff {t : Text} : trim t = [] ↔ allBlank t = true := by
  obtain ⟨lead, hlead, ht⟩ := eq_append_trimStart t
  rw [trim, trimEnd_eq_nil_iff]
  conv => rhs; rw [ht]
  simp [hlead]

end Text
end TypeComments
