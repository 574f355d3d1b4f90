import TypeComments.Line
import TypeComments.Text.Blank

/-! Line comments. The first `//` of a line opens a comment that runs to the end of the line, also
inside a string literal, so comments are found on lines that do not parse. A comment with nothing
but blanks before it speaks about the next line, any other about its own. -/

namespace TypeComments

structure Comment where
  line : Line
  before : Text
  body : Text
  deriving DecidableEq, Repr

namespace Comment

def opener : Text := "//".toList

def start (c : Comment) : Nat := c.line.start + Text.size c.before

/-- The number of the line the comment speaks about. -/
def subject (c : Comment) : Nat :=
  if Text.allBlank c.before then c.line.number + 1 else c.line.number

def ofLine? (l : Line) : Option Comment :=
  (Text.splitAt? opener l.text).map fun p => ⟨l, p.1, p.2⟩

theorem line_of_ofLine? {l : Line} {c : Comment} (h : ofLine? l = some c) : c.line = l := by
  obtain ⟨p, -, rfl⟩ := Option.map_eq_some_iff.1 h
  rfl

theorem text_of_ofLine? {l : Line} {c : Comment} (h : ofLine? l = some c) :
    l.text = c.before ++ opener ++ c.body := by
  obtain ⟨p, hp, rfl⟩ := Option.map_eq_some_iff.1 h
  exact Text.eq_append_of_splitAt? hp

theorem ofLine?_isSome (l : Line) : (ofLine? l).isSome = Text.holds opener l.text := by
  rw [ofLine?, Option.isSome_map, Text.splitAt?_isSome]

/-- Every comment of a text, top to bottom. -/
def all (source : Text) : List Comment := (lines source).filterMap ofLine?

theorem mem_all {source : Text} {c : Comment} :
    c ∈ all source ↔ ∃ l ∈ lines source, ofLine? l = some c := by
  simp [all]

end Comment
end TypeComments
