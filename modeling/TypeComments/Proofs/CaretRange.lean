import TypeComments.Proofs.CaretLines
import TypeComments.Proofs.CaretRewrite
import TypeComments.Proofs.Edit

/-! The range of a caret assertion and its expected text. What the source holds in the range is the
expected text, with the end of a line and the margin in the place of each line feed. Where lines end
in line feeds alone, putting the expected text in its own place therefore changes nothing. -/

namespace TypeComments

/-- What stands between a line and the next one. -/
def terminator? (source : Text) (k : Nat) : Option Text :=
  (lines source)[k]?.bind fun l => (lines source)[k + 1]?.bind fun next =>
    Text.slice? source l.stop next.start

theorem dropReturn_append_end (p : Text) :
    ∃ e, p ++ ['\n'] = Line.dropReturn p ++ e ∧ (e = "\n".toList ∨ e = "\r\n".toList) := by
  rcases Line.dropReturn_eq_or p with h | h
  · refine ⟨"\n".toList, ?_, Or.inl rfl⟩
    rw [← h]
    rfl
  · refine ⟨"\r\n".toList, ?_, Or.inr rfl⟩
    conv => lhs; rw [h]
    simp

theorem terminator?_of_feed (x : Text) {p : Text} (hp : '\n' ∉ p) (t : Text) :
    ∃ e, terminator? (x ++ '\n' :: (p ++ '\n' :: t)) (x.count '\n' + 1) = some e ∧
      p ++ ['\n'] = Line.dropReturn p ++ e ∧ (e = "\n".toList ∨ e = "\r\n".toList) := by
  obtain ⟨e, hpe, he⟩ := dropReturn_append_end p
  refine ⟨e, ?_, hpe, he⟩
  have hsize : Text.size p + 1 = Text.size (Line.dropReturn p) + Text.size e := by
    rw [← Text.size_append, ← hpe, Text.size_append]
    rfl
  have hslice : Text.slice? (x ++ '\n' :: (p ++ '\n' :: t))
      (Text.size x + 1 + Text.size (Line.dropReturn p)) (Text.size x + 1 + Text.size p + 1) =
        some e := by
    have hrest : p ++ '\n' :: t = Line.dropReturn p ++ e ++ t := by
      rw [← hpe]
      simp
    refine Text.slice?_eq_some_iff.2 ⟨x ++ '\n' :: Line.dropReturn p, t, ?_, ?_, by omega⟩
    · rw [hrest]
      simp
    · rw [Text.size_append, size_feed]
      omega
  obtain ⟨below, hbelow⟩ := linesFrom_eq_cons (x.count '\n' + 1 + 1)
    (Text.size x + 1 + Text.size p + 1) t
  have hlines : lines (x ++ '\n' :: (p ++ '\n' :: t)) = linesFrom 0 0 x ++
      ⟨x.count '\n' + 1, Text.size x + 1, Line.dropReturn p⟩ :: linesFrom (x.count '\n' + 1 + 1)
        (Text.size x + 1 + Text.size p + 1) t := by
    rw [lines_eq_linesFrom, linesFrom_append_feed, linesFrom_feed hp, Nat.zero_add, Nat.zero_add]
  have hlength : (linesFrom 0 0 x).length = x.count '\n' + 1 := length_linesFrom 0 0 x
  rw [terminator?, hlines, hbelow, List.getElem?_append_right (by omega),
    List.getElem?_append_right (by omega), hlength]
  simpa [Line.stop] using hslice

namespace CaretAssertion

/-- A text as it is written below a caret, when its first line is line `k` of a source and lines end
as `ends` says. -/
def writtenFrom (ends : Nat → Text) (margin : Text) : (k : Nat) → Text → Text
  | _, [] => []
  | k, c :: t =>
    if c = '\n' then ends k ++ margin ++ writtenFrom ends margin (k + 1) t
    else c :: writtenFrom ends margin k t

theorem writtenFrom_append {p : Text} (hp : '\n' ∉ p) (ends : Nat → Text) (margin : Text) (k : Nat)
    (t : Text) : writtenFrom ends margin k (p ++ t) = p ++ writtenFrom ends margin k t := by
  induction p with
  | nil => rfl
  | cons c p ih =>
    simp only [List.mem_cons, not_or] at hp
    rw [List.cons_append, writtenFrom, if_neg (Ne.symm hp.1), ih hp.2]
    rfl

theorem writtenFrom_last {p : Text} (hp : '\n' ∉ p) (ends : Nat → Text) (margin : Text) (k : Nat) :
    writtenFrom ends margin k p = p := by
  simpa [writtenFrom] using writtenFrom_append hp ends margin k []

theorem writtenFrom_feed {p : Text} (hp : '\n' ∉ p) (ends : Nat → Text) (margin : Text) (k : Nat)
    (t : Text) : writtenFrom ends margin k (p ++ '\n' :: t) =
      p ++ ends k ++ margin ++ writtenFrom ends margin (k + 1) t := by
  rw [writtenFrom_append hp, writtenFrom, if_pos rfl]
  simp

/-- The lines of a text with margins end in line feeds, with or without carriage returns, and the
text up to its last line is its lines, so ended and with the margin before each further one. -/
theorem indented_eq_writtenFrom {source margin after : Text} (hm : '\n' ∉ margin)
    (hlast : margin.getLast? ≠ some '\r') (written : Text) {x u : Text} (hu : '\n' ∉ u)
    (hulast : u.getLast? ≠ some '\r')
    (hsource : source = x ++ '\n' :: (u ++ indented margin written ++ after)) :
    (∀ k, x.count '\n' + 1 ≤ k → k < x.count '\n' + 1 + written.count '\n' →
      terminator? source k = some "\n".toList ∨ terminator? source k = some "\r\n".toList) ∧
    indented margin (Line.dropReturn written) = writtenFrom
      (fun k => (terminator? source k).getD []) margin (x.count '\n' + 1) (Text.bare written) := by
  have hdrop {p : Text} (hp : '\n' ∉ p) : '\n' ∉ Line.dropReturn p := fun h =>
    hp ((prefix_dropReturn p).subset h)
  induction written using Text.feed_induction generalizing x u with
  | last p hp =>
    constructor
    · intro k hle hlt
      rw [List.count_eq_zero.2 hp] at hlt
      omega
    · rw [Text.bare_last hp, indented_of_not_mem (hdrop hp), writtenFrom_last (hdrop hp)]
  | feed p t hp ih =>
    have hup : '\n' ∉ u ++ p := by simp [hu, hp]
    have hsource' : source =
        x ++ '\n' :: (u ++ p ++ '\n' :: (margin ++ indented margin t ++ after)) := by
      rw [hsource, indented_feed hp]
      simp
    obtain ⟨e, hterminator, hupe, he⟩ :=
      terminator?_of_feed x hup (margin ++ indented margin t ++ after)
    rw [← hsource'] at hterminator
    have hpe : p ++ ['\n'] = Line.dropReturn p ++ e := by
      rw [Line.dropReturn_append hulast, List.append_assoc, List.append_assoc] at hupe
      exact List.append_cancel_left hupe
    -- The rest of the text is below a line feed as well, with the margin for its first line.
    have hcount : (x ++ '\n' :: (u ++ p)).count '\n' = x.count '\n' + 1 := by
      simp [List.count_eq_zero.2 hu, List.count_eq_zero.2 hp]
    obtain ⟨hends, hrest⟩ := ih (x := x ++ '\n' :: (u ++ p)) hm hlast (by simpa using hsource')
    rw [hcount] at hends hrest
    constructor
    · intro k hle hlt
      rcases Nat.lt_or_eq_of_le hle with hk | rfl
      · apply hends k hk
        simp only [List.count_append, List.count_cons_self, List.count_eq_zero.2 hp] at hlt
        omega
      · rw [hterminator]
        rcases he with rfl | rfl
        · exact Or.inl rfl
        · exact Or.inr rfl
    · rw [Line.dropReturn_feed, indented_feed hp, Text.bare_feed hp, writtenFrom_feed (hdrop hp),
        ← hrest, hterminator, Option.getD_some, ← hpe]
      simp

end CaretAssertion

theorem HasCaret.fitsIn_replacement {source : Text} {c : CaretAssertion} (h : HasCaret source c)
    (actual : Text) : (c.replacement actual).FitsIn source := by
  obtain ⟨b, rfl, hb⟩ := h
  refine TextEdit.fitsIn_iff.2 ⟨b.above ++ b.head,
    CaretAssertion.indented b.margin (Line.dropReturn b.written), b.prefix_text, ?_⟩
  rw [CaretBlock.replacement_eq hb]

theorem CaretAssertion.subset_indented (margin t : Text) : t ⊆ indented margin t := by
  intro c hc
  refine List.mem_flatMap.2 ⟨c, hc, ?_⟩
  by_cases h : c = '\n'
  · simp [h]
  · simp [h]

theorem CaretBlock.text_rewrite_written {b : CaretBlock} (hspaced : b.spaced = true)
    (hreturn : '\r' ∉ b.text) : Text.bare b.written = b.written ∧
      (b.rewrite b.written).text = b.text := by
  have hwritten : '\r' ∉ b.written := by
    intro h
    apply hreturn
    have hmem := CaretAssertion.subset_indented b.margin b.written h
    rw [CaretBlock.text]
    exact List.mem_append_left _ (List.mem_append_right _ hmem)
  have hret : b.ret = [] := by
    rw [CaretBlock.ret, if_neg]
    exact fun h => hwritten (List.mem_of_getLast? h)
  refine ⟨Text.bare_of_not_mem hwritten, ?_⟩
  rw [CaretBlock.text_rewrite, CaretBlock.head_rewrite, hspaced, hret]
  simp [CaretBlock.text]

theorem ChangeSet.apply_ofList_singleton {e : TextEdit} {source fixed : Text}
    (h : e.applyTo? source = some fixed) : (ofList [e]).apply source = .ok fixed := by
  have hascending : Ascending ([e].filter (!·.isNoop)) :=
    List.Pairwise.filter _ (List.pairwise_singleton _ _)
  refine (apply_ofList_eq_ok_iff (List.Perm.refl _) hascending).2
    ⟨List.Pairwise.filter _ (List.pairwise_singleton _ _), ?_⟩
  rw [← List.filter_reverse, List.reverse_singleton]
  apply applyAll_filter
  rw [applyAll_cons h]
  rfl

namespace CaretAssertion

/-- The range of a caret assertion covers its expected text in a source. -/
structure Covers (source : Text) (c : CaretAssertion) : Prop where
  fits : ∀ actual, (c.replacement actual).FitsIn source
  onLines : c.OnLines source
  terminators : ∀ k, c.line ≤ k → k < c.lastLine →
    terminator? source k = some "\n".toList ∨ terminator? source k = some "\r\n".toList
  /-- In the range stands the expected text, with the end of its line and the margin in the place of
  each line feed. -/
  text : Text.slice? source c.range.start c.range.stop =
    some (writtenFrom (fun k => (terminator? source k).getD []) c.margin c.line c.expected)
  unchanged : '\r' ∉ source → c.needsSpace = false →
    (ChangeSet.ofList [c.replacement c.expected]).apply source = .ok source

/-- The range of a caret below the first line covers what the caret expects. -/
theorem covers_of_mem {source : Text} {c : CaretAssertion}
    (h : c ∈ (Assertions.ofSource source).carets) (hline : 0 < c.line) : c.Covers source := by
  have hcaret := hasCaret_of_mem h hline
  have honLines := onLines_of_mem h hline
  have hfits := hcaret.fitsIn_replacement
  obtain ⟨b, rfl, hb⟩ := hcaret
  obtain ⟨x, habove⟩ := b.above_feed
  have hcount : b.above.count '\n' = x.count '\n' + 1 := by simp [habove]
  have hmargin : b.margin.getLast? ≠ some '\r' := by simp [b.margin_getLast?]
  have hhead : b.head.getLast? ≠ some '\r' := by
    rw [b.head_getLast?]
    split <;> decide
  have htext : b.text = x ++ '\n' :: (b.head ++ indented b.margin b.written ++ b.after) := by
    simp [CaretBlock.text, habove]
  obtain ⟨hends, hwritten⟩ := indented_eq_writtenFrom b.feed_not_mem_margin hmargin b.written
    b.feed_not_mem_head hhead htext
  rw [← hcount] at hends hwritten
  constructor
  case fits => exact hfits
  case onLines => exact honLines
  case terminators =>
    intro k hle hlt
    rw [lastLine, hb.expected, Text.count_bare] at hlt
    rw [hb.line] at hle hlt
    exact hends k hle hlt
  case text =>
    rw [hb.range, hb.line, hb.margin, hb.expected, ← hwritten]
    refine Text.slice?_eq_some_iff.2 ⟨b.above ++ b.head, b.ret ++ b.after, ?_, rfl, ?_⟩
    · rw [b.text_eq, CaretBlock.upToEnd]
      simp
    · rw [CaretBlock.upToEnd, Text.size_append (b.above ++ b.head)]
  case unchanged =>
    intro hreturn hspace
    have hspaced : b.spaced = true := by
      have hneeds := hb.needsSpace
      rw [hspace] at hneeds
      simpa using hneeds
    obtain ⟨hbare, hsame⟩ := CaretBlock.text_rewrite_written hspaced hreturn
    apply ChangeSet.apply_ofList_singleton
    rw [hb.expected, hbare, CaretBlock.applyTo?_replacement hb, hsame]

def variedEnds : Text :=
  "let é = f();\n//  ^? A\r\n//     B\n//     C\r\ng(é);\n//^?\nh();\n //^?\r\n //   D".toList

theorem variedEnds_covered :
    (Assertions.ofSource variedEnds).carets.map (fun c => (c.line, c.range, c.needsSpace)) =
      [(1, ⟨21, 41⟩, false), (5, ⟨54, 54⟩, true), (7, ⟨65, 74⟩, true)] ∧
    ∀ c ∈ (Assertions.ofSource variedEnds).carets, c.Covers variedEnds := by
  have hline : ∀ c ∈ (Assertions.ofSource variedEnds).carets, 0 < c.line := by decide +kernel
  refine ⟨by decide +kernel, ?_⟩
  intro c hc
  exact covers_of_mem hc (hline c hc)

end CaretAssertion
end TypeComments
