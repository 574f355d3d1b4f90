import TypeComments.Proofs.CaretBlock
import TypeComments.Proofs.LineTable
import TypeComments.Report.Basic

/-! What a caret points at. Columns count characters, on the caret's line and on the line above it,
so that a caret points straight up whatever the characters are that stand before it and above them.
A caret that is not met is reported on its own line, behind the `^?`. -/

namespace TypeComments
namespace CaretAssertion

def markSize (c : CaretAssertion) : Nat := if c.needsSpace then 2 else 3

def caretOffset (c : CaretAssertion) : Nat := c.range.start - c.markSize

def column (source : Text) (c : CaretAssertion) : Nat :=
  ((LineTable.ofText source).location source c.caretOffset).column

/-- The caret of an assertion stands in its source, and points at the character in its column of the
line above. -/
structure PointsUp (source : Text) (c : CaretAssertion) : Prop where
  start : c.range.start = c.caretOffset + c.markSize
  mark : Text.slice? source c.caretOffset (c.caretOffset + 2) = some "^?".toList
  line : (LineTable.ofText source).location source c.caretOffset = ⟨c.line + 1, c.column source⟩
  target : ∀ p, c.position = some p →
    (∃ start stop, (LineTable.ofText source).lineStart? (c.line - 1) = some start ∧
      (LineTable.ofText source).lineStop? source (c.line - 1) = some stop ∧ start ≤ p ∧ p < stop) ∧
    (∃ char, Text.charAt? source p = some char) ∧
    (LineTable.ofText source).location source p = ⟨c.line, c.column source⟩
  untargeted : c.position = none ↔
    ((LineTable.ofText source).lineText source (c.line - 1)).length < c.column source
  reported : ∀ file findings u, u ∈ findings.unmet → u.expectation = .caret c →
    Report.ofUnmet source u ∈ (FileReport.ofFindings file source findings).reports ∧
      (Report.ofUnmet source u).diagnostic.location =
        ⟨c.line + 1, c.column source + c.markSize⟩

theorem target_of_pointAt {source : Text} {above : Line} {column p : Nat}
    (habove : above ∈ lines source) (hp : pointAt above column = some p) :
    above.start ≤ p ∧ p < above.stop ∧ (∃ char, Text.charAt? source p = some char) ∧
      (LineTable.ofText source).location source p = ⟨above.number + 1, column + 1⟩ := by
  obtain ⟨hlt, rfl⟩ := pointAt_eq_some_iff.1 hp
  obtain ⟨a, b, hsource, ha⟩ := exists_append_of_mem_lines habove
  have hsplit : above.text =
      above.text.take column ++ above.text[column] :: above.text.drop (column + 1) := by
    rw [List.getElem_cons_drop, List.take_append_drop]
  refine ⟨Nat.le_add_right _ _, ?_, ⟨above.text[column], ?_⟩, ?_⟩
  · have hsize := congrArg Text.size hsplit
    have hpos := (above.text[column]).utf8Size_pos
    rw [Text.size_append, Text.size_cons] at hsize
    rw [Line.stop]
    omega
  · refine Text.charAt?_eq_some_iff.2 ⟨a ++ above.text.take column,
      above.text.drop (column + 1) ++ b, ?_, by rw [Text.size_append, ha]⟩
    calc source = a ++ above.text ++ b := hsource
      _ = a ++ (above.text.take column ++ above.text[column] :: above.text.drop (column + 1)) ++ b :=
        by rw [← hsplit]
      _ = _ := by simp only [List.append_assoc, List.cons_append]
  · rw [LineTable.location_of_mem_lines habove (List.take_prefix _ _), List.length_take,
      Nat.min_eq_left (Nat.le_of_lt hlt)]

theorem pointsUp_ofComment {source : Text} {above : Line} {k : Comment} {indent : Nat} {rest : Text}
    (habove : above ∈ lines source) (hl : k.line ∈ lines source)
    (hnumber : above.number + 1 = k.line.number)
    (htext : k.line.text = k.before ++ Comment.opener ++
      (List.replicate indent ' ' ++ "^?".toList ++ rest))
    (hrest : rest = [] ∨ rest.head? = some ' ') (below : List Line) :
    (ofComment (some above) k indent rest below).PointsUp source := by
  set c := ofComment (some above) k indent rest below
  set lead := k.before ++ Comment.opener ++ List.replicate indent ' ' with hlead
  set mark := "^?".toList ++ rest.take 1 with hmark
  have hsize : Text.size mark = c.markSize := by
    rcases rest with _ | ⟨d, rest⟩
    · rfl
    · obtain rfl : d = ' ' := by simpa using hrest
      rfl
  have hlength : mark.length = c.markSize := by
    rcases rest with _ | ⟨d, rest⟩ <;> rfl
  have hlead_mark : k.line.text = lead ++ "^?".toList ++ rest := by
    rw [htext, hlead]
    simp only [List.append_assoc]
  have hmark_rest : k.line.text = lead ++ mark ++ rest.drop 1 := by
    rw [hlead_mark, hmark, List.append_assoc lead, List.append_assoc lead,
      List.append_assoc _ (rest.take 1), List.take_append_drop]
  have hstart : c.range.start = k.line.start + Text.size lead + c.markSize := by
    cases rest <;> rfl
  have hoffset : c.caretOffset = k.line.start + Text.size lead := by
    rw [caretOffset, hstart, Nat.add_sub_cancel]
  have hlocation : (LineTable.ofText source).location source c.caretOffset =
      ⟨k.line.number + 1, lead.length + 1⟩ := by
    rw [hoffset]
    exact LineTable.location_of_mem_lines hl ⟨"^?".toList ++ rest, by simp [hlead_mark]⟩
  have hcolumn : c.column source = lead.length + 1 := by rw [column, hlocation]
  have hposition : c.position = pointAt above lead.length := rfl
  have hline : c.line = above.number + 1 := hnumber.symm
  constructor
  case start => rw [hstart, hoffset]
  case mark =>
    have hslice := slice?_of_mem_lines hl hlead_mark
    rw [Text.size_append lead, ← Nat.add_assoc, ← hoffset] at hslice
    exact hslice
  case line => rw [hlocation, hcolumn, hline, hnumber]
  case target =>
    intro p hp
    obtain ⟨hle, hlt, hchar, htarget⟩ := target_of_pointAt habove (hposition.symm.trans hp)
    rw [hline, Nat.add_sub_cancel, LineTable.lineStart?_number habove,
      LineTable.lineStop?_number habove, hcolumn]
    exact ⟨⟨above.start, above.stop, rfl, rfl, hle, hlt⟩, hchar, htarget⟩
  case untargeted =>
    rw [hline, Nat.add_sub_cancel, LineTable.lineText_number habove, hcolumn, hposition, pointAt,
      ite_eq_right_iff, Nat.lt_succ_iff, ← Nat.not_lt]
    simp
  case reported =>
    intro file findings u hu hcaret
    constructor
    · rw [(FileReport.ofFindings_perm file source findings).mem_iff]
      simp only [FileReport.unsorted, List.mem_append]
      exact Or.inl (Or.inl (Or.inr (List.mem_map_of_mem hu)))
    · have hreport : (Report.ofUnmet source u).diagnostic.location =
          (LineTable.ofText source).location source c.range.start := by
        rw [Report.ofUnmet, hcaret]
        rfl
      have hbehind := LineTable.location_of_mem_lines hl ⟨rest.drop 1, hmark_rest.symm⟩
      rw [Text.size_append lead, hsize, ← Nat.add_assoc, ← hstart] at hbehind
      rw [hreport, hbehind, List.length_append, hlength, hcolumn, hline, hnumber,
        Nat.add_right_comm]

/-- Every caret below the first line points straight up, and is reported in its own column, behind
the `^?`. -/
theorem pointsUp_of_mem {source : Text} {c : CaretAssertion}
    (h : c ∈ (Assertions.ofSource source).carets) (hline : 0 < c.line) : c.PointsUp source := by
  obtain ⟨front, l, below, k, indent, rest, hlines, hk, hd, hrest, rfl⟩ := mem_carets_ofSource.1 h
  obtain rfl := Comment.line_of_ofLine? hk
  have htext := Comment.text_of_ofLine? hk
  rw [Directive.Written.eq_of_caret (Directive.ofBody?_eq_some_iff.1 hd)] at htext
  rw [line_ofComment, number_of_lines_eq_append hlines] at hline
  have hlast := List.getLast?_eq_some_getLast (List.ne_nil_of_length_pos hline)
  obtain ⟨habove, hnumber⟩ := (getLast?_front_iff hlines).1 hlast
  rw [← number_of_lines_eq_append hlines] at hnumber
  rw [hlast]
  exact pointsUp_ofComment habove (by simp [hlines]) hnumber htext hrest below

def wideLines : Text :=
  "const café = 1;\r\n//         ^? T\né\n/*ü*/ // ^? U\nλ = f();\n//^?".toList

theorem wideLines_pointed :
    (Assertions.ofSource wideLines).carets.map
        (fun c => (c.line, c.caretOffset, c.column wideLines, c.position)) =
      [(1, 29, 12, some 12), (3, 47, 10, none), (5, 64, 3, some 55)] ∧
    ∀ c ∈ (Assertions.ofSource wideLines).carets, c.PointsUp wideLines := by
  have hline : ∀ c ∈ (Assertions.ofSource wideLines).carets, 0 < c.line := by decide +kernel
  refine ⟨by decide +kernel, ?_⟩
  intro c hc
  exact pointsUp_of_mem hc (hline c hc)

end CaretAssertion
end TypeComments
