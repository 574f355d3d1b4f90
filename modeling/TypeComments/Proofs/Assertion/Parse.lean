import Mathlib.Data.List.Basic
import TypeComments.Assertion.Parse
import TypeComments.Proofs.Assertion.Contributions
import TypeComments.Proofs.Comment.Scan

/-! Reading by offsets gives the assertions that reading line by line gives. The scan finds the
comments of the lines; what a caret looks up by numbers of lines is the line above it and the lines
below. -/

namespace TypeComments

namespace CaretAssertion

theorem readOn_eq (source : Text) (table : LineTable) (margin : Text) (next : Nat)
    (expected : Text) (range : Span) :
    readOn source table margin next expected range =
      match table.lineStop? source next with
      | none => (expected, range)
      | some stop =>
        match Text.strip? margin (table.lineText source next) with
        | none => (expected, range)
        | some rest =>
          readOn source table margin (next + 1) (expected ++ '\n' :: rest)
            (range.extendTo stop) := by
  rw [readOn]
  split
  · rename_i hstop
    rw [hstop]
  · rename_i hstop
    cases Text.strip? margin (table.lineText source next) <;> simp only [hstop]

theorem readOn_of_lines {source margin : Text} {front below : List Line} {l : Line}
    (h : lines source = front ++ l :: below) (expected : Text) (start : Nat) :
    readOn source (LineTable.ofText source) margin (l.number + 1) expected ⟨start, l.stop⟩ =
      (expected ++ (continuation margin below).flatMap fun p => '\n' :: p.2,
        ⟨start, (((continuation margin below).getLast?.map Prod.fst).getD l).stop⟩) := by
  induction below generalizing front l expected with
  | nil =>
    have hstop : (LineTable.ofText source).lineStop? source (l.number + 1) = none := by
      rw [LineTable.lineStop?, LineTable.lineStart?_next h]
      rfl
    rw [readOn_eq, hstop]
    simp [continuation]
  | cons l' below ih =>
    have hl' : l' ∈ lines source := by simp [h]
    have h' : lines source = (front ++ [l]) ++ l' :: below := by simp [h]
    have hnumber : l'.number = l.number + 1 := by
      rw [number_of_lines_eq_append h', number_of_lines_eq_append h]
      simp
    have hlater : l.stop ≤ l'.stop :=
      Nat.le_trans (stop_lt_start_of_lines h (by simp)).le (Nat.le_add_right _ _)
    rw [← hnumber, readOn_eq, LineTable.lineStop?_number hl', LineTable.lineText_number hl',
      continuation]
    cases hstrip : Text.strip? margin l'.text with
    | none => simp
    | some rest =>
      have hrange : Span.extendTo ⟨start, l.stop⟩ l'.stop = ⟨start, l'.stop⟩ := by
        rw [Span.extendTo, Nat.max_eq_right hlater]
      simp only [hrange, ih h', getD_last_cons]
      simp

theorem ofOccurrence_occurrence {source : Text} {front below : List Line} {c : Comment}
    (h : lines source = front ++ c.line :: below) (hc : Comment.ofLine? c.line = some c)
    {indent : Nat} {rest : Text}
    (hbody : c.body = List.replicate indent ' ' ++ "^?".toList ++ rest) :
    ofOccurrence source (LineTable.ofText source) c.occurrence indent rest =
      ofComment front.getLast? c indent rest below := by
  have hnumber := number_of_lines_eq_append h
  have hline : c.occurrence.line = c.line.number := rfl
  cases hlast : front.getLast? with
  | none =>
    have hnil : front = [] := List.getLast?_eq_none_iff.1 hlast
    rw [hnil, List.length_nil] at hnumber
    rw [ofOccurrence, hline, if_pos hnumber]
    rfl
  | some above =>
    obtain ⟨habove, habove'⟩ := (getLast?_front_iff h).1 hlast
    have hpos : c.line.number ≠ 0 := by omega
    have hprev : above.number = c.line.number - 1 := by omega
    have hl : c.line ∈ lines source := by simp [h]
    set lead := c.before ++ Comment.opener ++ List.replicate indent ' ' with hlead
    have htext : c.line.text = [] ++ lead ++ ("^?".toList ++ rest) := by
      rw [Comment.text_of_ofLine? hc, hbody, hlead]
      simp
    have hcaret : c.occurrence.start + 2 + indent = c.line.start + Text.size lead := by
      have hstart : c.occurrence.start = c.line.start + Text.size c.before := rfl
      have hopener : Text.size Comment.opener = 2 := rfl
      rw [hstart, hlead, Text.size_append, Text.size_append, hopener, Text.size_spaces]
      omega
    have hslice : Text.slice? source c.line.start (c.line.start + Text.size lead) = some lead :=
      slice?_of_mem_lines hl htext
    have hrange : (if rest = [] then Span.point (c.line.start + Text.size lead + 2)
        else ⟨c.line.start + Text.size lead + 3, c.line.stop⟩) =
        ⟨if rest = [] then c.line.start + Text.size lead + 2
          else c.line.start + Text.size lead + 3, c.line.stop⟩ := by
      split
      · rename_i hnil
        have hmark : Text.size "^?".toList = 2 := rfl
        have hstop : c.line.stop = c.line.start + Text.size lead + 2 := by
          rw [Line.stop, htext, hnil, List.nil_append, List.append_nil, Text.size_append, hmark,
            Nat.add_assoc]
        rw [hstop]
        rfl
      · rfl
    rw [ofOccurrence, hline, if_neg hpos]
    simp only [hcaret, LineTable.lineStart?_number hl, LineTable.lineStop?_number hl, ← hprev,
      LineTable.lineStart?_number habove, LineTable.lineText_number habove, Option.getD_some,
      Option.bind_some, hslice, hrange, readOn_of_lines h]
    rfl

end CaretAssertion

namespace Assertions

theorem addOccurrence_occurrence {source : Text} {c : Comment} (h : c ∈ Comment.all source)
    (a : Assertions) :
    addOccurrence source (LineTable.ofText source) a c.occurrence =
      ((Record.ofComment? source c).map a.add).getD a := by
  obtain ⟨l, hl, hc⟩ := Comment.mem_all.1 h
  obtain rfl := Comment.line_of_ofLine? hc
  obtain ⟨front, below, hlines⟩ := List.append_of_mem hl
  have hbody : c.occurrence.body = c.body := rfl
  have hsubject : c.occurrence.subject = c.subject := rfl
  rw [Record.ofComment?_of_lines hlines, addOccurrence, hbody, hsubject]
  cases hd : Directive.ofBody? c.body with
  | none => rfl
  | some d =>
    rw [Option.map_some, Option.map_some, Option.getD_some, ← addDirective_eq_add]
    rcases d with (_ | expected) | (_ | name) | _ | ⟨indent, rest⟩
    case caret =>
      have hwritten := Directive.Written.eq_of_caret (Directive.ofBody?_eq_some_iff.1 hd)
      rw [addDirective, ← CaretAssertion.ofOccurrence_occurrence hlines hc hwritten]
    all_goals rfl

/-- With a source's own table, reading by offsets gives what reading line by line gives. -/
theorem parse_ofText (source : Text) :
    parse source (LineTable.ofText source) = some (ofSource source) := by
  rw [parse, Occurrence.scan_ofText, Option.map_some, List.foldl_map, ofSource_eq_foldl,
    Record.ofSource_eq_filterMap, List.foldl_filterMap]
  congr 1
  refine List.foldl_ext _ _ _ fun a c hc => ?_
  rw [addOccurrence_occurrence hc]
  cases Record.ofComment? source c <;> rfl

end Assertions
end TypeComments
