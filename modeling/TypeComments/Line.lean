import TypeComments.Text.Basic

/-! Physical lines. A line feed ends a line, and one carriage return before it (or at the end of the
text) belongs to the terminator. A text always has a last line, which may be empty. -/

namespace TypeComments

/-- A line with its number from 0, the offset of its first byte, and its text without terminator. -/
structure Line where
  number : Nat
  start : Nat
  text : Text
  deriving DecidableEq, Repr

namespace Line

def stop (l : Line) : Nat := l.start + Text.size l.text

def dropReturn (t : Text) : Text := if t.getLast? = some '\r' then t.dropLast else t

theorem dropReturn_eq_iff {piece t : Text} :
    dropReturn piece = t ↔ piece = t ∧ t.getLast? ≠ some '\r' ∨ piece = t ++ ['\r'] := by
  constructor
  · rintro rfl
    by_cases h : piece.getLast? = some '\r'
    · obtain ⟨front, rfl⟩ := List.getLast?_eq_some_iff.1 h
      right
      simp [dropReturn]
    · left
      simp [dropReturn, h]
  · rintro (⟨rfl, h⟩ | rfl)
    · simp [dropReturn, h]
    · simp [dropReturn]

theorem dropReturn_eq_or (t : Text) : t = dropReturn t ∨ t = dropReturn t ++ ['\r'] :=
  (dropReturn_eq_iff.1 rfl).imp_left And.left

/-- Lay out the pieces of a text between its line feeds: the first is line `k` at offset `start`. -/
def layout (k start : Nat) : List Text → List Line
  | [] => []
  | piece :: rest =>
    ⟨k, start, dropReturn piece⟩ :: layout (k + 1) (start + Text.size piece + 1) rest

@[simp] theorem layout_length (k start : Nat) (pieces : List Text) :
    (layout k start pieces).length = pieces.length := by
  induction pieces generalizing k start with
  | nil => rfl
  | cons piece rest ih => simp [layout, ih]

theorem layout_getElem? (k start i : Nat) (pieces : List Text) :
    (layout k start pieces)[i]? = pieces[i]?.map fun piece =>
      ⟨k + i, start + Text.size ((pieces.take i).flatMap (· ++ ['\n'])), dropReturn piece⟩ := by
  induction pieces generalizing k start i with
  | nil => rfl
  | cons piece rest ih =>
    cases i with
    | zero => simp [layout]
    | succ i =>
      have hfeed : Text.size ['\n'] = 1 := rfl
      simp only [layout, List.getElem?_cons_succ, ih, List.take_succ_cons, List.flatMap_cons,
        Text.size_append, hfeed]
      congr 2
      funext p
      simp only [Line.mk.injEq, and_true]
      omega

end Line

def lines (source : Text) : List Line := Line.layout 0 0 (source.splitOn '\n')

theorem lines_getElem? (source : Text) (k : Nat) :
    (lines source)[k]? = (source.splitOn '\n')[k]?.map fun piece =>
      ⟨k, Text.size (((source.splitOn '\n').take k).flatMap (· ++ ['\n'])),
        Line.dropReturn piece⟩ := by
  rw [lines, Line.layout_getElem?]
  simp only [Nat.zero_add]

theorem lines_getElem?_number {source : Text} {i : Nat} {l : Line}
    (h : (lines source)[i]? = some l) : l.number = i := by
  rw [lines_getElem?] at h
  obtain ⟨piece, -, rfl⟩ := Option.map_eq_some_iff.1 h
  rfl

end TypeComments
