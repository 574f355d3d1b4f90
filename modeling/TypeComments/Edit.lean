import TypeComments.Span
import TypeComments.Text.Basic

/-! Edits to a text. A change set collects edits whose spans all refer to the same text, refuses to
apply them if two of them overlap, and otherwise applies them from the last to the first, so that
the spans of those still to come stay valid. Offsets past the end of the text mean its end. -/

namespace TypeComments

/-- Put `text` in the place of what `span` covers. -/
structure TextEdit where
  span : Span
  text : Text
  deriving DecidableEq, Repr

namespace TextEdit

def insert (offset : Nat) (text : Text) : TextEdit := ⟨Span.point offset, text⟩

def isNoop (e : TextEdit) : Bool := e.span.isEmpty && e.text.isEmpty

def le (a b : TextEdit) : Bool :=
  a.span.start < b.span.start || (a.span.start == b.span.start && a.span.stop ≤ b.span.stop)

theorem le_iff {a b : TextEdit} :
    a.le b = true ↔
      a.span.start < b.span.start ∨ a.span.start = b.span.start ∧ a.span.stop ≤ b.span.stop := by
  simp [le]

theorem le_trans (a b c : TextEdit) (hab : a.le b = true) (hbc : b.le c = true) :
    a.le c = true := by
  rw [le_iff] at *
  omega

theorem le_total (a b : TextEdit) : (a.le b || b.le a) = true := by
  rw [Bool.or_eq_true, le_iff, le_iff]
  omega

/-- The edited text, if both ends of the span, moved back to the end of the text where they lie
past it, are boundaries. A span that ends before it starts is read as empty. -/
def applyTo? (e : TextEdit) (t : Text) : Option Text :=
  let start := min e.span.start (Text.size t)
  let stop := max (min e.span.stop (Text.size t)) start
  (Text.cut? t start).bind fun front =>
    (Text.cut? t stop).map fun back => front.1 ++ e.text ++ back.2

theorem applyTo?_middle (a m b new : Text) :
    applyTo? ⟨⟨Text.size a, Text.size a + Text.size m⟩, new⟩ (a ++ m ++ b) =
      some (a ++ new ++ b) := by
  have hfront : Text.cut? (a ++ (m ++ b)) (Text.size a) = some (a, m ++ b) :=
    Text.cut?_size_append _ _
  have hback : Text.cut? (a ++ m ++ b) (Text.size (a ++ m)) = some (a ++ m, b) :=
    Text.cut?_size_append _ _
  rw [Text.size_append] at hback
  have hstart : min (Text.size a) (Text.size (a ++ m ++ b)) = Text.size a := by simp
  have hstop : max (min (Text.size a + Text.size m) (Text.size (a ++ m ++ b))) (Text.size a) =
      Text.size a + Text.size m := by simp
  simp only [applyTo?, hstart, hstop, hback]
  rw [List.append_assoc, hfront]
  simp

end TextEdit

structure EditConflict where
  first : TextEdit
  second : TextEdit
  deriving DecidableEq, Repr

def EditConflict.message (c : EditConflict) : String :=
  "edits overlap: " ++ c.first.span.toString ++ " and " ++ c.second.span.toString

inductive EditError
  | conflict (c : EditConflict)
  | misaligned (edit : TextEdit)
  deriving DecidableEq, Repr

/-- Edits that wait to be applied, in the order they were added. -/
structure ChangeSet where
  edits : List TextEdit := []
  deriving DecidableEq, Repr

namespace ChangeSet

/-- Add an edit, unless it changes nothing. -/
def push (c : ChangeSet) (e : TextEdit) : ChangeSet :=
  if e.isNoop then c else ⟨c.edits ++ [e]⟩

def ofList (es : List TextEdit) : ChangeSet := es.foldl push {}

def isEmpty (c : ChangeSet) : Bool := c.edits.isEmpty

def firstOverlap? : List TextEdit → Option EditConflict
  | a :: b :: rest =>
    if b.span.start < a.span.stop then some ⟨a, b⟩ else firstOverlap? (b :: rest)
  | _ => none

/-- The first overlap among the edits in ascending order. Edits that only touch do not overlap, nor
do two insertions at one place. -/
def conflict? (c : ChangeSet) : Option EditConflict := firstOverlap? (c.edits.mergeSort TextEdit.le)

/-- The edits from the last to the first; edits of one span keep the order they were added in. -/
def descending (c : ChangeSet) : List TextEdit := c.edits.mergeSort fun a b => b.le a

def applyAll : List TextEdit → Text → Except EditError Text
  | [], t => .ok t
  | e :: es, t =>
    match e.applyTo? t with
    | some t' => applyAll es t'
    | none => .error (.misaligned e)

def apply (c : ChangeSet) (source : Text) : Except EditError Text :=
  match c.conflict? with
  | some conflict => .error (.conflict conflict)
  | none => applyAll c.descending source

@[simp] theorem edits_push (c : ChangeSet) (e : TextEdit) :
    (c.push e).edits = c.edits ++ [e].filter (!·.isNoop) := by
  cases h : e.isNoop <;> simp [push, h]

theorem edits_foldl_push (c : ChangeSet) (es : List TextEdit) :
    (es.foldl push c).edits = c.edits ++ es.filter (!·.isNoop) := by
  induction es generalizing c with
  | nil => simp
  | cons e es ih =>
    rw [List.foldl_cons, ih, edits_push, List.append_assoc, ← List.filter_append]
    rfl

@[simp] theorem edits_ofList (es : List TextEdit) : (ofList es).edits = es.filter (!·.isNoop) := by
  simp [ofList, edits_foldl_push]

@[simp] theorem isEmpty_iff {c : ChangeSet} : c.isEmpty = true ↔ c.edits = [] := by
  simp [isEmpty]

end ChangeSet
end TypeComments
