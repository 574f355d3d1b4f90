import TypeComments.Proofs.CaretLines
import TypeComments.Proofs.CaretRewrite
import TypeComments.Proofs.Edit

/-! Two carets of a source. The expected text of the upper one ends above the line of the lower one,
or it goes on there. In the second case it goes on as long as the text of the lower one does, whose
margin starts with its own. Expected texts are therefore apart or one inside the other. -/

namespace TypeComments

def CaretAssertion.GoesOnAt (c d : CaretAssertion) : Prop :=
  c.line < d.line ∧ d.line ≤ c.line + c.expected.count '\n'

instance (c d : CaretAssertion) : Decidable (c.GoesOnAt d) :=
  inferInstanceAs (Decidable (_ ∧ _))

/-- The expected text of a caret ends before that of any caret below its last line starts. -/
theorem stop_lt_start_of_line_lt {source : Text} {c d : CaretAssertion} (hc : HasCaret source c)
    (hd : HasCaret source d) (hlt : c.line + c.expected.count '\n' < d.line) :
    c.range.stop < d.range.start := by
  obtain ⟨b, rfl, hb⟩ := hc
  have hcount : b.upToEnd.count '\n' = c.line + c.expected.count '\n' := by
    rw [b.count_upToEnd, hb.line, hb.expected, Text.count_bare]
  by_contra hle
  have hstart : d.range.start ≤ Text.size b.upToEnd := by
    rw [hb.range, Nat.not_lt] at hle
    exact hle
  have hline := line_le_count_of_start_le hd b.prefix_text hstart
  rw [hcount] at hline
  exact Nat.not_le_of_lt hlt hline

namespace CaretAssertion

variable {source : Text} {c d : CaretAssertion}

/-- A caret on a line that starts with the margin of another has a margin that starts with it: the
other margin cannot reach beyond the `//` and the spaces before the caret. -/
theorem prefix_margin_of_prefix_text (hc : HasCaret source c) (hd : HasCaret source d)
    (hdl : d.OnLines source) {l : Line} (hl : l ∈ lines source) (hnumber : l.number = d.line)
    (hmargin : c.margin <+: l.text) : c.margin <+: d.margin := by
  obtain ⟨e, -, he⟩ := hc
  obtain ⟨b, -, hb⟩ := hd
  obtain ⟨l', k, indent, rest, hl', hnumber', hk, hbody, hdmargin, -⟩ := hdl.own
  obtain rfl : l = l' := eq_of_number_eq hl hl' (hnumber.trans hnumber'.symm)
  have hlead : b.lead = k.before ++ Comment.opener ++ List.replicate indent ' ' := by
    rw [hb.margin, CaretBlock.margin] at hdmargin
    exact (List.append_inj' hdmargin rfl).1
  have htext : l.text = b.lead ++ '^' :: '?' :: rest := by
    rw [Comment.text_of_ofLine? hk, hbody, hlead]
    simp
  rw [he.margin, htext] at hmargin
  rw [he.margin, hb.margin, CaretBlock.margin]
  exact (CaretBlock.prefix_lead hmargin).trans (List.prefix_append _ _)

theorem lastLine_le_of_prefix (hc : c.OnLines source) (hd : d.OnLines source)
    (hline : d.line ≤ c.lastLine) (hmargin : c.margin <+: d.margin) : d.lastLine ≤ c.lastLine := by
  by_contra hlt
  obtain ⟨last, hlast, hnumber, -⟩ := hd.last
  obtain ⟨l, hl, hnext⟩ := exists_line_of_le hlast (show c.lastLine + 1 ≤ last.number by omega)
  have hfurther : d.margin <+: l.text := hd.further l hl (by omega) (by omega)
  exact hc.next l hl hnext (hmargin.trans hfurther)

theorem stop_le_stop_of_lastLine_le (hc : c.OnLines source) (hd : d.OnLines source)
    (h : d.lastLine ≤ c.lastLine) : d.range.stop ≤ c.range.stop := by
  obtain ⟨l, hl, hnumber, hstop⟩ := hc.last
  obtain ⟨l', hl', hnumber', hstop'⟩ := hd.last
  rw [hstop, hstop']
  exact stop_le_of_number_le hl' hl (by omega)

theorem conflict?_replacements_eq_none (hstart : c.range.start < d.range.start)
    (hapart : c.range.stop ≤ d.range.start) {actual actual' : Text} {edits : List TextEdit}
    (hedits : edits.Perm [c.replacement actual, d.replacement actual']) :
    (ChangeSet.ofList edits).conflict? = none := by
  have hascending : ChangeSet.Ascending [c.replacement actual, d.replacement actual'] :=
    List.pairwise_pair.2 hstart
  have hstops : [c.replacement actual, d.replacement actual'].Pairwise
      fun a b => a.span.stop ≤ b.span.start := List.pairwise_pair.2 hapart
  exact (ChangeSet.conflict?_ofList_eq_none_iff (hedits.filter _) (hascending.filter _)).2
    (hstops.filter _)

/-- The expected texts of two carets are apart, or that of the lower caret is inside that of the
upper one, which goes on at its line. Only then can replacements of both conflict. -/
theorem ranges_apart_or_nested (hc : c ∈ (Assertions.ofSource source).carets)
    (hd : d ∈ (Assertions.ofSource source).carets) (hpos : 0 < c.line) (hlt : c.line < d.line) :
    (c.lastLine < d.line → c.range.stop < d.range.start) ∧
    (d.line ≤ c.lastLine →
      (∃ l ∈ lines source, l.number = d.line ∧ c.margin <+: l.text) ∧ c.margin <+: d.margin ∧
        c.range.start ≤ d.range.start ∧ d.range.stop ≤ c.range.stop) ∧
    ∀ actual actual' edits, edits.Perm [c.replacement actual, d.replacement actual'] →
      (ChangeSet.ofList edits).conflict? ≠ none → c.GoesOnAt d := by
  have hpos' : 0 < d.line := Nat.lt_trans hpos hlt
  have hcblock := hasCaret_of_mem hc hpos
  have hdblock := hasCaret_of_mem hd hpos'
  have hclines := onLines_of_mem hc hpos
  have hdlines := onLines_of_mem hd hpos'
  have hstart := start_lt_of_line_lt hcblock hdblock hlt
  have hapart (hbelow : c.lastLine < d.line) : c.range.stop < d.range.start :=
    stop_lt_start_of_line_lt hcblock hdblock hbelow
  refine ⟨hapart, ?_, ?_⟩
  · intro hle
    obtain ⟨l, -, -, -, hl, hnumber, -⟩ := hdlines.own
    have hmargin : c.margin <+: l.text := hclines.further l hl (by omega) (by omega)
    have hmargins := prefix_margin_of_prefix_text hcblock hdblock hdlines hl hnumber hmargin
    have hlast := lastLine_le_of_prefix hclines hdlines hle hmargins
    exact ⟨⟨l, hl, hnumber, hmargin⟩, hmargins, Nat.le_of_lt hstart,
      stop_le_stop_of_lastLine_le hclines hdlines hlast⟩
  · intro actual actual' edits hedits hconflict
    refine ⟨hlt, Nat.not_lt.1 fun hbelow => hconflict ?_⟩
    exact conflict?_replacements_eq_none hstart (Nat.le_of_lt (hapart hbelow)) hedits

def caretInCaret : Text :=
  "let a = b;\n//  ^? A\n//     ^? B\r\n//        C\n//     D\nf(a);\n//^? E".toList

theorem caretInCaret_nested :
    (Assertions.ofSource caretInCaret).carets.map (fun c => (c.line, c.lastLine, c.range)) =
      [(1, 4, ⟨18, 53⟩), (2, 3, ⟨30, 44⟩), (6, 6, ⟨65, 66⟩)] ∧
    ∀ c ∈ (Assertions.ofSource caretInCaret).carets,
      ∀ d ∈ (Assertions.ofSource caretInCaret).carets, c.line < d.line →
      (c.lastLine < d.line → c.range.stop < d.range.start) ∧
      (d.line ≤ c.lastLine →
        (∃ l ∈ lines caretInCaret, l.number = d.line ∧ c.margin <+: l.text) ∧
          c.margin <+: d.margin ∧ c.range.start ≤ d.range.start ∧ d.range.stop ≤ c.range.stop) ∧
      ∀ actual actual' edits, edits.Perm [c.replacement actual, d.replacement actual'] →
        (ChangeSet.ofList edits).conflict? ≠ none → c.GoesOnAt d := by
  have hpos : ∀ c ∈ (Assertions.ofSource caretInCaret).carets, 0 < c.line := by decide +kernel
  refine ⟨by decide +kernel, ?_⟩
  intro c hc d hd hlt
  exact ranges_apart_or_nested hc hd (hpos c hc) hlt

end CaretAssertion
end TypeComments
