import TypeComments.Text.Blank

/-! Type texts up to the gaps between their words. Spaces and line feeds are gaps: a run of them
reads as one space, and gaps and other blanks at either end read as nothing. -/

namespace TypeComments
namespace TypeText

def isGap (c : Char) : Bool := c = ' ' || c = '\n'

/-- Write each run of gaps as one space, once something follows it. The flag says that a run came
just before. -/
def squeeze (afterGap : Bool) : Text → Text
  | [] => []
  | c :: t =>
    if isGap c then squeeze true t
    else if afterGap then ' ' :: c :: squeeze false t
    else c :: squeeze false t

def normalize (t : Text) : Text := Text.trim (squeeze false (t.dropWhile isGap))

@[simp] theorem squeeze_nil (w : Bool) : squeeze w [] = [] := rfl

theorem squeeze_cons_gap {c : Char} (h : isGap c = true) (w : Bool) (t : Text) :
    squeeze w (c :: t) = squeeze true t := by
  simp [squeeze, h]

end TypeText
end TypeComments
