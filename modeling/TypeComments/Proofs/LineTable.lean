import TypeComments.LineTable
import TypeComments.Proofs.Lines

/-! The table of a text, asked about that text. Every lookup then finds the line as it stands in the
text: an offset from a line's start up to the next line is on that line, the line's end leaves out
the line feed and one carriage return before it, and the column of an offset in the line's text is
the number of characters before it. -/

namespace TypeComments

theorem exists_piece_of_lines {source : Text} {front below : List Line} {l : Line}
    (h : lines source = front ++ l :: below) :
    ∃ above piece after, source = above ++ piece ++ after ∧ '\n' ∉ piece ∧
      l = ⟨front.length, Text.size above, Line.dropReturn piece⟩ ∧
      (after = [] ∧ below = [] ∨ ∃ t, after = '\n' :: t ∧
        below = linesFrom (front.length + 1) (Text.size above + Text.size piece + 1) t) := by
  obtain ⟨above, rest, hsource, -, -, hrest⟩ := eq_append_of_linesFrom h
  rw [Nat.zero_add, Nat.zero_add] at hrest
  by_cases hfeed : '\n' ∈ rest
  · obtain ⟨piece, t, rfl, hpiece⟩ := List.eq_append_cons_of_mem hfeed
    rw [linesFrom_feed hpiece] at hrest
    obtain ⟨rfl, rfl⟩ := List.cons.inj hrest
    exact ⟨above, piece, '\n' :: t, by simp [hsource], hpiece, rfl, Or.inr ⟨t, rfl, rfl⟩⟩
  · rw [linesFrom_last hfeed] at hrest
    obtain ⟨rfl, rfl⟩ := List.cons.inj hrest
    exact ⟨above, rest, [], by simp [hsource], hfeed, rfl, Or.inl ⟨rfl, rfl⟩⟩

theorem exists_append_of_mem_lines {source : Text} {l : Line} (h : l ∈ lines source) :
    ∃ a b, source = a ++ l.text ++ b ∧ Text.size a = l.start := by
  obtain ⟨front, below, hlines⟩ := List.append_of_mem h
  obtain ⟨above, piece, after, rfl, -, rfl, -⟩ := exists_piece_of_lines hlines
  obtain ⟨r, hr⟩ := prefix_dropReturn piece
  refine ⟨above, r ++ after, ?_, rfl⟩
  conv => lhs; rw [← hr]
  simp

theorem stop_le_size {source : Text} {l : Line} (h : l ∈ lines source) :
    l.stop ≤ Text.size source := by
  obtain ⟨a, b, hsource, ha⟩ := exists_append_of_mem_lines h
  rw [Line.stop, hsource, Text.size_append, Text.size_append, ha]
  omega

theorem start_le_size {source : Text} {l : Line} (h : l ∈ lines source) :
    l.start ≤ Text.size source :=
  Nat.le_trans (Nat.le_add_right _ _) (stop_le_size h)

theorem slice?_of_mem_lines {source : Text} {l : Line} (h : l ∈ lines source) {x y z : Text}
    (htext : l.text = x ++ y ++ z) :
    Text.slice? source (l.start + Text.size x) (l.start + Text.size (x ++ y)) = some y := by
  obtain ⟨a, b, hsource, ha⟩ := exists_append_of_mem_lines h
  refine Text.slice?_eq_some_iff.2 ⟨a ++ x, z ++ b, ?_, ?_, ?_⟩
  · rw [hsource, htext]
    simp
  · rw [Text.size_append, ha]
  · rw [Text.size_append, Nat.add_assoc]

namespace LineTable

theorem lineStart?_number {source : Text} {l : Line} (h : l ∈ lines source) :
    (ofText source).lineStart? l.number = some l.start := by
  rw [ofText_lineStart?, getElem?_lines_iff.2 ⟨h, rfl⟩]
  rfl

theorem lineStart?_next {source : Text} {front below : List Line} {l : Line}
    (h : lines source = front ++ l :: below) :
    (ofText source).lineStart? (l.number + 1) = below.head?.map Line.start := by
  have hnumber := number_of_lines_eq_append h
  rw [ofText_lineStart?, h, hnumber, List.getElem?_append_right (by omega), Nat.add_sub_cancel_left]
  cases below <;> rfl

/-- An offset is on the last line that does not start behind it. -/
theorem lineIndex_eq_number {source : Text} {front below : List Line} {l : Line}
    (h : lines source = front ++ l :: below) {offset : Nat} (hle : l.start ≤ offset)
    (hlt : ∀ l' ∈ below, offset < l'.start) : (ofText source).lineIndex offset = l.number := by
  have hpairs : (lines source).Pairwise fun a b => a.stop < b.start :=
    linesFrom_pairwise_stop 0 0 source
  rw [h] at hpairs
  have hfront : front.countP (fun a => a.start ≤ offset) = front.length := by
    rw [List.countP_eq_length]
    intro a ha
    have hstop := (List.pairwise_append.1 hpairs).2.2 a ha l (by simp)
    simp only [Line.stop] at hstop
    simp only [decide_eq_true_eq]
    omega
  have hbelow : below.countP (fun a => a.start ≤ offset) = 0 := by
    rw [List.countP_eq_zero]
    intro a ha
    simpa using hlt a ha
  have hcount : (ofText source).starts.countP (· ≤ offset) = front.length + 1 := by
    simp only [ofText, List.countP_map, Function.comp_def, h, List.countP_append,
      List.countP_cons, hfront, hbelow]
    simp [hle]
  rw [lineIndex, hcount, number_of_lines_eq_append h, Nat.add_sub_cancel]

theorem lineIndex_of_mem_lines {source : Text} {l : Line} (h : l ∈ lines source) {offset : Nat}
    (hle : l.start ≤ offset) (hstop : offset ≤ l.stop) :
    (ofText source).lineIndex offset = l.number := by
  obtain ⟨front, below, hlines⟩ := List.append_of_mem h
  exact lineIndex_eq_number hlines hle fun l' hl' =>
    Nat.lt_of_le_of_lt hstop (stop_lt_start_of_lines hlines hl')

theorem stop_of_piece (above piece after : Text) :
    (if Text.size above < Text.size above + Text.size piece ∧
        Text.charAt? (above ++ piece ++ after) (Text.size above + Text.size piece - 1) = some '\r'
      then Text.size above + Text.size piece - 1 else Text.size above + Text.size piece) =
      Text.size above + Text.size (Line.dropReturn piece) := by
  have hreturn : Text.size ['\r'] = 1 := rfl
  by_cases hlast : piece.getLast? = some '\r'
  · obtain ⟨front, rfl⟩ := List.getLast?_eq_some_iff.1 hlast
    have hat : Text.charAt? (above ++ (front ++ ['\r']) ++ after)
        (Text.size above + Text.size (front ++ ['\r']) - 1) = some '\r' := by
      refine Text.charAt?_eq_some_iff.2 ⟨above ++ front, after, by simp, ?_⟩
      rw [Text.size_append, Text.size_append, hreturn]
      omega
    have hdrop : Line.dropReturn (front ++ ['\r']) = front := by simp [Line.dropReturn]
    rw [if_pos ⟨by rw [Text.size_append, hreturn]; omega, hat⟩, hdrop, Text.size_append, hreturn]
    omega
  · have hdrop : Line.dropReturn piece = piece := by simp [Line.dropReturn, hlast]
    rw [hdrop, if_neg]
    rintro ⟨hlt, hat⟩
    obtain ⟨a, b, hab, hsize⟩ := Text.charAt?_eq_some_iff.1 hat
    -- A return that ends where the piece ends is its last character.
    have hprefix : a ++ ['\r'] <+: above ++ piece := by
      refine Text.prefix_of_size_le (t := above ++ piece ++ after) ⟨b, by simp [hab]⟩
        (List.prefix_append _ _) ?_
      rw [Text.size_append, Text.size_append, hreturn]
      omega
    obtain ⟨r, hr⟩ := hprefix
    have hnil : r = [] := by
      have hsizes := congrArg Text.size hr
      simp only [Text.size_append, hreturn] at hsizes
      exact Text.size_eq_zero_iff.1 (by omega)
    have hne : piece ≠ [] := by
      rintro rfl
      simp at hlt
    rw [hnil, List.append_nil] at hr
    have hends := congrArg List.getLast? hr
    rw [List.getLast?_concat, List.getLast?_append, List.getLast?_eq_some_getLast hne,
      Option.some_or] at hends
    exact hlast ((List.getLast?_eq_some_getLast hne).trans hends.symm)

theorem lineStop?_number {source : Text} {l : Line} (h : l ∈ lines source) :
    (ofText source).lineStop? source l.number = some l.stop := by
  obtain ⟨front, below, hlines⟩ := List.append_of_mem h
  have hstart := lineStart?_number h
  have hnext := lineStart?_next hlines
  obtain ⟨above, piece, after, hsource, -, rfl, hafter⟩ := exists_piece_of_lines hlines
  have hend : ((below.head?.map Line.start).map (· - 1)).getD (ofText source).size =
      Text.size above + Text.size piece := by
    rcases hafter with ⟨rfl, rfl⟩ | ⟨t, rfl, rfl⟩
    · simp [ofText, hsource]
    · obtain ⟨ls, hls⟩ := linesFrom_eq_cons (front.length + 1)
        (Text.size above + Text.size piece + 1) t
      simp [hls]
  rw [lineStop?, hstart, hnext, Option.map_some, hend, hsource, stop_of_piece]
  rfl

theorem lineText_number {source : Text} {l : Line} (h : l ∈ lines source) :
    (ofText source).lineText source l.number = l.text := by
  have hslice := slice?_of_mem_lines h (x := []) (y := l.text) (z := []) (by simp)
  simp only [Text.size_nil, Nat.add_zero, List.nil_append] at hslice
  simp only [lineText, lineStart?_number h, lineStop?_number h, Line.stop, hslice, Option.getD_some]

/-- The column of an offset in a line's text counts the characters before it. -/
theorem location_of_mem_lines {source : Text} {l : Line} (h : l ∈ lines source) {x : Text}
    (hx : x <+: l.text) :
    (ofText source).location source (l.start + Text.size x) = ⟨l.number + 1, x.length + 1⟩ := by
  obtain ⟨y, hy⟩ := hx
  have hslice := slice?_of_mem_lines h (x := []) (y := x) (z := y) (by simp [hy])
  have hstop : l.start + Text.size x ≤ l.stop := by
    rw [Line.stop, ← hy, Text.size_append]
    omega
  simp only [Text.size_nil, Nat.add_zero, List.nil_append] at hslice
  simp only [location, lineIndex_of_mem_lines h (Nat.le_add_right _ _) hstop, lineStart?_number h,
    Option.getD_some, Nat.min_eq_left (Nat.le_trans hstop (stop_le_size h)), hslice]

end LineTable
end TypeComments
