import Mathlib.Data.List.Basic
import TypeComments.Proofs.CaretLines

/-! Carriage returns at the ends of lines. When every line feed of a source gets a carriage return
before it, the lines keep their numbers and texts, and each starts as many bytes later as there are
lines above it. The assertions stay the same, and a caret moves with the lines it is about: what it
points at with the line above, its expected text with its own line and with the last line of that
text. -/

namespace TypeComments

namespace Text

/-- The text with a carriage return before every line feed. -/
def withReturns (t : Text) : Text := t.flatMap fun c => if c = '\n' then ['\r', '\n'] else [c]

theorem withReturns_last {p : Text} (hp : '\n' ∉ p) : withReturns p = p := by
  have hchar : ∀ c ∈ p, (if c = '\n' then ['\r', '\n'] else [c]) = [c] := by
    intro c hc
    have hne : c ≠ '\n' := fun h => hp (h ▸ hc)
    simp [hne]
  rw [withReturns, List.flatMap_congr hchar, List.flatMap_singleton']

theorem withReturns_feed {p : Text} (hp : '\n' ∉ p) (t : Text) :
    withReturns (p ++ '\n' :: t) = p ++ ['\r'] ++ '\n' :: withReturns t := by
  have hlast := withReturns_last hp
  simp only [withReturns] at hlast ⊢
  simp [hlast]

end Text

namespace Line

def withReturns (l : Line) : Line := { l with start := l.start + l.number }

@[simp] theorem number_withReturns (l : Line) : l.withReturns.number = l.number := rfl

@[simp] theorem text_withReturns (l : Line) : l.withReturns.text = l.text := rfl

theorem stop_withReturns (l : Line) : l.withReturns.stop = l.stop + l.number := by
  simp only [stop, withReturns]
  omega

end Line

theorem linesFrom_withReturns {t : Text} (h : '\r' ∉ t) (k start : Nat) :
    linesFrom k (start + k) t.withReturns = (linesFrom k start t).map Line.withReturns := by
  induction t using Text.feed_induction generalizing k start with
  | last p hp => simp [Text.withReturns_last hp, linesFrom_last hp, Line.withReturns]
  | feed p t hp ih =>
    simp only [List.mem_append, List.mem_cons, not_or] at h
    have hline : '\n' ∉ p ++ ['\r'] := by simp [hp]
    have hstart : start + k + Text.size (p ++ ['\r']) + 1 = start + Text.size p + 1 + (k + 1) := by
      have hreturn : Text.size ['\r'] = 1 := rfl
      rw [Text.size_append, hreturn]
      omega
    rw [Text.withReturns_feed hp, linesFrom_feed hline, linesFrom_feed hp, hstart, ih h.2.2,
      Line.dropReturn_append_return, Line.dropReturn_of_not_mem h.1]
    rfl

theorem lines_withReturns {source : Text} (h : '\r' ∉ source) :
    lines source.withReturns = (lines source).map Line.withReturns :=
  linesFrom_withReturns h 0 0

namespace Comment

def withReturns (c : Comment) : Comment := { c with line := c.line.withReturns }

theorem ofLine?_withReturns (l : Line) :
    ofLine? l.withReturns = (ofLine? l).map withReturns := by
  simp only [ofLine?, Line.text_withReturns, Option.map_map]
  rfl

end Comment

namespace CaretAssertion

/-- The caret, moved by one carriage return for each line above what it points at, above the start
of its expected text, and above the end of that text. -/
def withReturns (c : CaretAssertion) : CaretAssertion :=
  { c with
    position := c.position.map (· + (c.line - 1))
    range := ⟨c.range.start + c.line, c.range.stop + (c.line + c.expected.count '\n')⟩ }

theorem continuation_withReturns (margin : Text) (ls : List Line) :
    continuation margin (ls.map Line.withReturns) =
      (continuation margin ls).map fun p => (p.1.withReturns, p.2) := by
  induction ls with
  | nil => rfl
  | cons l below ih =>
    simp only [List.map_cons, continuation, Line.text_withReturns]
    cases Text.strip? margin l.text with
    | none => rfl
    | some rest => simp [ih]

theorem pointAt_withReturns (above : Line) (column : Nat) :
    pointAt above.withReturns column = (pointAt above column).map (· + above.number) := by
  by_cases h : column < above.text.length
  · simp [pointAt, h, Line.withReturns, Nat.add_right_comm]
  · simp [pointAt, h]

theorem ofComment_withReturns {above : Option Line} {c : Comment} {below : List Line} {rest : Text}
    (habove : (above.map fun a => a.number + 1).getD 0 = c.line.number)
    (hbelow : Consecutive (c.line.number + 1) below) (hrest : '\n' ∉ rest) (indent : Nat) :
    ofComment (above.map Line.withReturns) c.withReturns indent rest (below.map Line.withReturns) =
      (ofComment above c indent rest below).withReturns := by
  cases above with
  | none =>
    have hfirst : c.line.number = 0 := habove.symm
    simp [ofComment, unattachable, withReturns, Comment.withReturns, Span.dummy, hfirst]
  | some above =>
    have hnumber : above.number = c.line.number - 1 := by
      have : above.number + 1 = c.line.number := habove
      omega
    have hdrop : (rest.drop 1).count '\n' = 0 :=
      List.count_eq_zero.2 fun h => hrest (List.mem_of_mem_drop h)
    simp only [ofComment, Option.map_some, continuation_withReturns, pointAt_withReturns, hnumber,
      withReturns, Comment.withReturns, Line.number_withReturns, CaretAssertion.mk.injEq, true_and,
      and_true, List.flatMap_map, Span.mk.injEq, List.count_append, hdrop, Nat.zero_add]
    constructor
    · simp only [Line.withReturns]
      split <;> omega
    · rw [← number_last_continuation _ hbelow, ← Line.stop_withReturns, List.getLast?_map]
      cases (continuation _ below).getLast? <;> rfl

end CaretAssertion

namespace Record

def withReturns : Record → Record
  | caret c => caret c.withReturns
  | r => r

theorem ofDirective_withReturns {above : Option Line} {c : Comment} {below : List Line}
    {d : Directive} (habove : (above.map fun a => a.number + 1).getD 0 = c.line.number)
    (hbelow : Consecutive (c.line.number + 1) below) (hline : '\n' ∉ c.body)
    (hd : Directive.ofBody? c.body = some d) :
    ofDirective (above.map Line.withReturns) c.withReturns (below.map Line.withReturns) d =
      (ofDirective above c below d).withReturns := by
  rcases d with (_ | _) | (_ | _) | _ | ⟨indent, rest⟩
  case caret =>
    have hbody := Directive.Written.eq_of_caret (Directive.ofBody?_eq_some_iff.1 hd)
    have hrest : '\n' ∉ rest := fun h => hline (by simp [hbody, h])
    simp only [ofDirective]
    split
    · rw [CaretAssertion.ofComment_withReturns habove hbelow hrest]
      rfl
    · rfl
  all_goals rfl

theorem ofLines_withReturns (above : Option Line) {ls : List Line}
    (h : Consecutive ((above.map fun a => a.number + 1).getD 0) ls) :
    ofLines (above.map Line.withReturns) (ls.map Line.withReturns) =
      (ofLines above ls).map withReturns := by
  induction ls generalizing above with
  | nil => rfl
  | cons l below ih =>
    obtain ⟨hnumber, hline, hbelow⟩ := h
    have hbelow : Consecutive (l.number + 1) below := hnumber ▸ hbelow
    have htail := ih (some l) hbelow
    simp only [Option.map_some] at htail
    simp only [List.map_cons, ofLines, List.map_append, htail, Comment.ofLine?_withReturns]
    congr 1
    cases hc : Comment.ofLine? l with
    | none => rfl
    | some c =>
      have hcl := Comment.line_of_ofLine? hc
      have hbody : '\n' ∉ c.body := fun h => hline (by simp [Comment.text_of_ofLine? hc, h])
      cases hd : Directive.ofBody? c.body with
      | none => simp [Comment.withReturns, hd]
      | some d =>
        have hmoved := ofDirective_withReturns (hcl ▸ hnumber.symm) (hcl ▸ hbelow) hbody hd
        simpa [Comment.withReturns, hd] using hmoved

end Record

namespace Assertions

def withReturns (a : Assertions) : Assertions :=
  { a with carets := a.carets.map CaretAssertion.withReturns }

theorem markDuplicate_withReturns (a : Assertions) (k : Nat) :
    a.withReturns.markDuplicate k = (a.markDuplicate k).withReturns := by
  by_cases h : k ∈ a.duplicateLines <;> simp [markDuplicate, withReturns, h]

theorem add_withReturns (a : Assertions) (r : Record) :
    a.withReturns.add r.withReturns = (a.add r).withReturns := by
  cases r with
  | type line t =>
    by_cases h : line ∈ a.types
    · have hmark := markDuplicate_withReturns { a with types := a.types.erase line } line
      simpa [add, Record.withReturns, insertType, withReturns, h] using hmark
    · simp [add, Record.withReturns, insertType, withReturns, h]
  | error line =>
    by_cases h : line ∈ a.errorLines
    · have hmark := markDuplicate_withReturns { a with errorLines := a.errorLines.erase line } line
      simpa [add, Record.withReturns, insertError, withReturns, h] using hmark
    · simp [add, Record.withReturns, insertError, withReturns, h]
  | mistake m => rfl
  | caret c => simp [add, Record.withReturns, addCaret, withReturns]

theorem foldl_withReturns (a : Assertions) (rs : List Record) :
    (rs.map Record.withReturns).foldl add a.withReturns = (rs.foldl add a).withReturns := by
  induction rs generalizing a with
  | nil => rfl
  | cons r rs ih => rw [List.map_cons, List.foldl_cons, add_withReturns, ih, List.foldl_cons]

/-- A source without carriage returns asserts the same when its lines get them, but for the places
of the carets. -/
theorem ofSource_withReturns {source : Text} (h : '\r' ∉ source) :
    (ofSource source.withReturns).types = (ofSource source).types ∧
    (ofSource source.withReturns).errorLines = (ofSource source).errorLines ∧
    (ofSource source.withReturns).duplicateLines = (ofSource source).duplicateLines ∧
    (ofSource source.withReturns).mistakes = (ofSource source).mistakes ∧
    (ofSource source.withReturns).carets =
      (ofSource source).carets.map CaretAssertion.withReturns := by
  have hrecords : Record.ofSource source.withReturns =
      (Record.ofSource source).map Record.withReturns := by
    simp only [Record.ofSource, lines_withReturns h]
    exact Record.ofLines_withReturns none (consecutive_linesFrom 0 0 source)
  have hmoved : ofSource source.withReturns = (ofSource source).withReturns := by
    simp only [ofSource_eq_foldl, hrecords]
    exact foldl_withReturns {} (Record.ofSource source)
  rw [hmoved]
  exact ⟨rfl, rfl, rfl, rfl, rfl⟩

def fedLines : Text :=
  "lét x = f();\n//  ^? A\n//     B\ng(); // $ExpectType T\n//^?".toList

theorem fedLines_withReturns :
    '\r' ∉ fedLines ∧
    (ofSource fedLines).carets.map (fun c => (c.position, c.range)) =
      [(some 5, ⟨21, 31⟩), (some 34, ⟨58, 58⟩)] ∧
    (ofSource fedLines.withReturns).carets.map (fun c => (c.position, c.range)) =
      [(some 5, ⟨22, 33⟩), (some 37, ⟨62, 62⟩)] ∧
    (ofSource fedLines.withReturns).types = (ofSource fedLines).types := by
  have h : '\r' ∉ fedLines := by decide
  obtain ⟨htypes, -, -, -, hcarets⟩ := ofSource_withReturns h
  refine ⟨h, by decide +kernel, ?_, htypes⟩
  rw [hcarets]
  decide +kernel

end Assertions
end TypeComments
