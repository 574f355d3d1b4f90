import TypeComments.Comment.Scan
import TypeComments.Proofs.CaretBlock
import TypeComments.Proofs.LineTable
import TypeComments.Proofs.Text.Bytes

/-! A scan by offsets against a reading line by line. From the start of a line a scan finds the
line's own comment, or, if it has none, what it finds from the start of the next line. By induction
from the last line up, a scan with a source's own table ends and finds the comment of each line. -/

namespace TypeComments

theorem splitAt?_dropReturn (piece : Text) :
    Text.splitAt? Comment.opener (Line.dropReturn piece) =
      (Text.splitAt? Comment.opener piece).map fun p => (p.1, Line.dropReturn p.2) := by
  have hopener : '\r' ∉ Comment.opener := by decide
  have hnone : Text.splitAt? Comment.opener [] = none := by decide
  by_cases hlast : piece.getLast? = some '\r'
  · obtain ⟨front, rfl⟩ := List.getLast?_eq_some_iff.1 hlast
    rw [Text.splitAt?_append_cons hopener (by decide), Line.dropReturn_append_return]
    cases Text.splitAt? Comment.opener front with
    | some p => simp [Line.dropReturn_append_return]
    | none => simp [hnone]
  · have hpiece : Line.dropReturn piece = piece := by simp [Line.dropReturn, hlast]
    rw [hpiece]
    cases h : Text.splitAt? Comment.opener piece with
    | none => rfl
    | some p =>
      have hbehind : Line.dropReturn p.2 = p.2 := by
        have hend : (p.1 ++ Comment.opener).getLast? ≠ some '\r' := by simp [Comment.opener]
        have htext := Text.eq_append_of_splitAt? h
        rw [htext, Line.dropReturn_append hend] at hpiece
        exact List.append_cancel_left hpiece
      simp [hbehind]

namespace Comment

def occurrence (c : Comment) : Occurrence := ⟨c.body, c.start, c.subject, c.line.number⟩

/-- From the start of a line the next `//` is that of the line's comment, or the next from the start
of the line below. -/
theorem find?_start {source : Text} {front below : List Line} {l : Line}
    (h : lines source = front ++ l :: below) :
    Text.find? opener source l.start =
      match ofLine? l with
      | some c => some c.start
      | none => below.head?.bind fun next => Text.find? opener source next.start := by
  have hslash : '/'.toNat < 128 := by decide
  have hfeed : '\n' ∉ opener := by decide
  obtain ⟨above, piece, after, rfl, -, rfl, hafter⟩ := exists_piece_of_lines h
  have hpiece := splitAt?_dropReturn piece
  rw [ofLine?, hpiece, List.append_assoc]
  refine (Text.find?_append hslash ['/'] above (piece ++ after)).trans ?_
  change (Text.splitAt? opener (piece ++ after)).map _ = _
  rcases hafter with ⟨rfl, rfl⟩ | ⟨t, rfl, rfl⟩
  · rw [List.append_nil]
    cases Text.splitAt? opener piece <;> rfl
  · obtain ⟨ls, hls⟩ := linesFrom_eq_cons (front.length + 1)
      (Text.size above + Text.size piece + 1) t
    rw [Text.splitAt?_append_cons hfeed (by decide), hls]
    cases Text.splitAt? opener piece with
    | some p => rfl
    | none =>
      have hnext : Text.size (above ++ (piece ++ ['\n'])) =
          Text.size above + Text.size piece + 1 := by
        simp only [Text.size_append, size_feed, Text.size_nil]
        omega
      have hfind := Text.find?_append hslash ['/'] (above ++ (piece ++ ['\n'])) t
      rw [hnext, List.append_assoc, List.append_assoc] at hfind
      simp only [Option.map_none, List.head?_cons, Option.bind_some]
      refine Eq.trans ?_ hfind.symm
      rw [Option.map_map]
      congr 1
      funext p
      simp only [Function.comp_apply, Text.size_append, size_feed]
      omega

theorem start_le_stop {l : Line} {c : Comment} (h : ofLine? l = some c) : c.start ≤ l.stop := by
  obtain rfl := line_of_ofLine? h
  rw [start, Line.stop, text_of_ofLine? h, Text.size_append, Text.size_append]
  omega

theorem atOffset_start {source : Text} {l : Line} (hl : l ∈ lines source) {c : Comment}
    (hc : ofLine? l = some c) :
    Text.slice? source l.start c.start = some c.before ∧
    Text.slice? source (c.start + 2) l.stop = some c.body ∧
    Occurrence.atOffset source (LineTable.ofText source) c.start = c.occurrence := by
  obtain rfl := line_of_ofLine? hc
  have htext := text_of_ofLine? hc
  have hopener : Text.size opener = 2 := rfl
  have hstart : c.start = c.line.start + Text.size c.before := rfl
  have hstop : c.line.stop = c.line.start + Text.size (c.before ++ opener ++ c.body) := by
    rw [Line.stop, htext]
  have hbefore : Text.slice? source c.line.start c.start = some c.before :=
    slice?_of_mem_lines hl (x := []) (z := opener ++ c.body) (by simp [htext])
  have hbody : Text.slice? source (c.start + 2) c.line.stop = some c.body := by
    have hslice := slice?_of_mem_lines hl (x := c.before ++ opener) (y := c.body) (z := [])
      (by simp [htext])
    rwa [Text.size_append c.before, hopener, ← Nat.add_assoc, ← hstart, ← hstop] at hslice
  refine ⟨hbefore, hbody, ?_⟩
  have hindex : (LineTable.ofText source).lineIndex c.start = c.line.number :=
    LineTable.lineIndex_of_mem_lines hl (Nat.le_add_right _ _) (start_le_stop hc)
  simp only [Occurrence.atOffset, hindex, LineTable.lineStart?_number hl,
    LineTable.lineStop?_number hl, Option.getD_some, hbefore, hbody, Text.trim_eq_nil_iff]
  rfl

end Comment

namespace Occurrence

theorem scanFrom_of_le {source : Text} {pos : Nat} (h : pos ≤ Text.size source) (table : LineTable) :
    scanFrom source table pos =
      match Text.find? Comment.opener source pos with
      | none => some []
      | some start =>
        match table.lineStart? ((atOffset source table start).line + 1) with
        | none => some [atOffset source table start]
        | some next =>
          if start < next then (scanFrom source table next).map (atOffset source table start :: ·)
          else none := by
  rw [scanFrom, if_pos h]
  split
  · rename_i hfind
    simp only [hfind]
  · rename_i start hfind
    cases hnext : table.lineStart? ((atOffset source table start).line + 1) <;>
      simp only [hfind, hnext]

/-- From the start of a line a scan finds the comments of the line and those below it. -/
theorem scanFrom_start {source : Text} {front below : List Line} {l : Line}
    (h : lines source = front ++ l :: below) :
    scanFrom source (LineTable.ofText source) l.start =
      some (((l :: below).filterMap Comment.ofLine?).map Comment.occurrence) := by
  induction below generalizing front l with
  | nil =>
    have hl : l ∈ lines source := by simp [h]
    rw [scanFrom_of_le (start_le_size hl), Comment.find?_start h]
    cases hc : Comment.ofLine? l with
    | none => simp [hc]
    | some c =>
      obtain rfl := Comment.line_of_ofLine? hc
      simp only [(Comment.atOffset_start hl hc).2.2]
      rw [Comment.occurrence, LineTable.lineStart?_next h]
      simp [hc, Comment.occurrence]
  | cons next below ih =>
    have hl : l ∈ lines source := by simp [h]
    have hnext : next ∈ lines source := by simp [h]
    have hrest := @ih (front ++ [l]) next (by simp [h])
    rw [scanFrom_of_le (start_le_size hl), Comment.find?_start h]
    cases hc : Comment.ofLine? l with
    | none =>
      -- A line without a comment is passed over: the scan is the one from the next line.
      rw [scanFrom_of_le (start_le_size hnext)] at hrest
      rw [List.filterMap_cons_none hc, ← hrest]
      rfl
    | some c =>
      obtain rfl := Comment.line_of_ofLine? hc
      have hforward : c.start < next.start :=
        Nat.lt_of_le_of_lt (Comment.start_le_stop hc) (stop_lt_start_of_lines h (by simp))
      simp only [(Comment.atOffset_start hl hc).2.2]
      rw [Comment.occurrence, LineTable.lineStart?_next h]
      simp [hc, hforward, hrest, Comment.occurrence]

theorem scan_ofText (source : Text) :
    scan source (LineTable.ofText source) = some ((Comment.all source).map Comment.occurrence) := by
  obtain ⟨below, hlines⟩ := linesFrom_eq_cons 0 0 source
  have hfirst := @scanFrom_start source [] below _ hlines
  rw [← hlines] at hfirst
  exact hfirst

/-- The occurrence is the first `//` of a line that stands as `piece` between line feeds. The text
before it and the body are found as slices of the source. -/
def IsFirstOf (source : Text) (o : Occurrence) (piece : Text) : Prop :=
  ∃ before after, piece = before ++ Comment.opener ++ after ∧
    (∀ x y, piece = x ++ Comment.opener ++ y → before.length ≤ x.length) ∧
    o.start = Text.size (((source.splitOn '\n').take o.line).flatMap (· ++ ['\n'])) +
      Text.size before ∧
    o.body = Line.dropReturn after ∧
    o.subject = (if Text.allBlank before then o.line + 1 else o.line) ∧
    ∃ lineStart lineStop, (LineTable.ofText source).lineStart? o.line = some lineStart ∧
      (LineTable.ofText source).lineStop? source o.line = some lineStop ∧
      Text.slice? source lineStart o.start = some before ∧
      Text.slice? source (o.start + 2) lineStop = some o.body

/-- The occurrences of a source, told line by line. -/
structure LineByLine (source : Text) (os : List Occurrence) : Prop where
  ascending : os.Pairwise fun a b => a.line < b.line
  first : ∀ o ∈ os, ∃ piece, (source.splitOn '\n')[o.line]? = some piece ∧ o.IsFirstOf source piece
  every : ∀ k piece, (source.splitOn '\n')[k]? = some piece →
    Text.holds Comment.opener piece = true → ∃ o ∈ os, o.line = k

theorem isFirstOf_of_mem_all {source : Text} {c : Comment} (h : c ∈ Comment.all source) :
    ∃ piece, (source.splitOn '\n')[c.line.number]? = some piece ∧
      c.occurrence.IsFirstOf source piece := by
  obtain ⟨l, hl, hc⟩ := Comment.mem_all.1 h
  obtain rfl := Comment.line_of_ofLine? hc
  obtain ⟨hbefore, hbody, -⟩ := Comment.atOffset_start hl hc
  have hline := getElem?_lines_iff.2 ⟨hl, rfl⟩
  rw [lines_getElem?] at hline
  obtain ⟨piece, hpiece, hl'⟩ := Option.map_eq_some_iff.1 hline
  have htext : Text.splitAt? Comment.opener (Line.dropReturn piece) = some (c.before, c.body) := by
    obtain ⟨p, hp, hcp⟩ := Option.map_eq_some_iff.1 hc
    rw [← hl'] at hp
    rw [← hcp]
    exact hp
  rw [splitAt?_dropReturn] at htext
  obtain ⟨⟨before, after⟩, hsplit, hparts⟩ := Option.map_eq_some_iff.1 htext
  obtain ⟨hbefore', hbody'⟩ := Prod.mk.inj hparts
  simp only at hbefore' hbody'
  obtain ⟨hcut, hfirst⟩ := Text.splitAt?_eq_some_iff.1 hsplit
  rw [hbefore'] at hcut hfirst
  refine ⟨piece, hpiece, c.before, after, hcut, hfirst, ?_, hbody'.symm, rfl, c.line.start,
    c.line.stop, LineTable.lineStart?_number hl, LineTable.lineStop?_number hl, hbefore, hbody⟩
  have hstart := congrArg Line.start hl'
  simp only at hstart
  simp only [Comment.occurrence, Comment.start, hstart]

/-- A scan of a source with its own table ends, and finds the first `//` of each line that has one,
from top to bottom. -/
theorem scan_lineByLine (source : Text) :
    ∃ os, scan source (LineTable.ofText source) = some os ∧ LineByLine source os := by
  refine ⟨_, scan_ofText source, ?_⟩
  constructor
  case ascending => exact List.pairwise_map.2 (Comment.all_pairwise_number source)
  case first =>
    intro o ho
    obtain ⟨c, hc, rfl⟩ := List.mem_map.1 ho
    exact isFirstOf_of_mem_all hc
  case every =>
    intro k piece hpiece hholds
    have hline := lines_getElem? source k
    rw [hpiece, Option.map_some] at hline
    obtain ⟨l, hl, rfl, htext⟩ : ∃ l ∈ lines source, l.number = k ∧ l.text = Line.dropReturn piece :=
      ⟨_, List.mem_of_getElem? hline, rfl, rfl⟩
    have hsome : (Comment.ofLine? l).isSome = true := by
      rw [Comment.ofLine?_isSome, ← Text.splitAt?_isSome, htext, splitAt?_dropReturn,
        Option.isSome_map, Text.splitAt?_isSome, hholds]
    obtain ⟨c, hc⟩ := Option.isSome_iff_exists.1 hsome
    obtain rfl := Comment.line_of_ofLine? hc
    exact ⟨c.occurrence, List.mem_map_of_mem (Comment.mem_all.2 ⟨c.line, hl, hc⟩), rfl⟩

end Occurrence
end TypeComments
