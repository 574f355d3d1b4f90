import TypeComments.Proofs.CaretNesting

/-! The code of a text is what its lines hold before their first `//`. The lines that a caret's
expected text takes up all have the same code, since they all start with what stands before the
caret: a new expected text has that code once for each of its lines, and touches no other. -/

namespace TypeComments

namespace Text

/-- What stands before the first `//`, or all of the text. -/
def codePart (t : Text) : Text := ((splitAt? Comment.opener t).map Prod.fst).getD t

/-- The code of every line, also where there is none. -/
def codeLines (t : Text) : List Text := ((lines t).map Line.text).map codePart

/-- The code of a text, line by line, without the lines on which there is none. -/
def code (t : Text) : List Text := (codeLines t).filter fun part => !allBlank part

theorem codePart_append_opener {before : Text} (h : Comment.OpensAfter before) (body : Text) :
    codePart (before ++ Comment.opener ++ body) = before := by
  have hsplit : splitAt? Comment.opener (before ++ Comment.opener ++ body) = some (before, body) :=
    splitAt?_eq_some_iff.2 ⟨rfl, fun _ _ hxy => h.length_le hxy⟩
  rw [codePart, hsplit]
  rfl

theorem codeLines_last {p : Text} (hp : '\n' ∉ p) :
    codeLines p = [codePart (Line.dropReturn p)] := by
  rw [codeLines, lines_eq_linesFrom, linesFrom_last hp]
  rfl

theorem codeLines_append_feed (x t : Text) :
    codeLines (x ++ '\n' :: t) = codeLines x ++ codeLines t := by
  rw [codeLines, lines_eq_linesFrom, linesFrom_append_feed, List.map_append,
    map_text_linesFrom _ _ 0 0 t, List.map_append]
  rfl

theorem codeLines_feed {p : Text} (hp : '\n' ∉ p) (t : Text) :
    codeLines (p ++ '\n' :: t) = codePart (Line.dropReturn p) :: codeLines t := by
  rw [codeLines_append_feed, codeLines_last hp]
  rfl

theorem length_codeLines (t : Text) : (codeLines t).length = t.count '\n' + 1 := by
  rw [codeLines, List.length_map, List.length_map, lines_eq_linesFrom, length_linesFrom]

theorem codePart_of_lead {u before y : Text} (hu : u = before ++ Comment.opener ++ y)
    (h : Comment.OpensAfter before) (t : Text) : codePart (Line.dropReturn (u ++ t)) = before := by
  have hlast : (before ++ Comment.opener).getLast? ≠ some '\r' := by simp [Comment.opener]
  rw [hu, List.append_assoc _ y, Line.dropReturn_append hlast, codePart_append_opener h]

theorem codeLines_indented {before y u y' margin : Text} (h : Comment.OpensAfter before)
    (hu : u = before ++ Comment.opener ++ y) (huline : '\n' ∉ u)
    (hm : margin = before ++ Comment.opener ++ y') (hmline : '\n' ∉ margin) (t b : Text) :
    codeLines (u ++ CaretAssertion.indented margin t ++ b) =
      List.replicate (t.count '\n' + 1) before ++ (codeLines b).tail := by
  induction t using feed_induction generalizing u y with
  | last p hp =>
    rw [CaretAssertion.indented_of_not_mem hp, List.count_eq_zero.2 hp]
    by_cases hb : '\n' ∈ b
    · obtain ⟨q, t, rfl, hq⟩ := List.eq_append_cons_of_mem hb
      have hupq : '\n' ∉ u ++ p ++ q := by simp [huline, hp, hq]
      rw [← List.append_assoc, codeLines_feed hupq, codeLines_feed hq, List.append_assoc u,
        codePart_of_lead hu h]
      rfl
    · have hupb : '\n' ∉ u ++ p ++ b := by simp [huline, hp, hb]
      rw [codeLines_last hupb, codeLines_last hb, List.append_assoc u, codePart_of_lead hu h]
      rfl
  | feed p t hp ih =>
    have hup : '\n' ∉ u ++ p := by simp [huline, hp]
    have hcount : (p ++ '\n' :: t).count '\n' = t.count '\n' + 1 := by
      simp [List.count_eq_zero.2 hp]
    have htext : u ++ CaretAssertion.indented margin (p ++ '\n' :: t) ++ b =
        u ++ p ++ '\n' :: (margin ++ CaretAssertion.indented margin t ++ b) := by
      simp [CaretAssertion.indented_feed hp]
    rw [htext, codeLines_feed hup, codePart_of_lead hu h, ih hm hmline, hcount]
    rfl

end Text

/-- The entries of a list, numbered from `k` on, each as often as `times` says. -/
def repeatLines (times : Nat → Nat) : Nat → List Text → List Text
  | _, [] => []
  | k, x :: xs => List.replicate (times k) x ++ repeatLines times (k + 1) xs

theorem repeatLines_append (times : Nat → Nat) (k : Nat) (xs ys : List Text) :
    repeatLines times k (xs ++ ys) =
      repeatLines times k xs ++ repeatLines times (k + xs.length) ys := by
  induction xs generalizing k with
  | nil => rfl
  | cons x xs ih =>
    have hlength : k + (x :: xs).length = k + 1 + xs.length := by simp; omega
    rw [List.cons_append, repeatLines, ih, repeatLines, hlength, List.append_assoc]

theorem repeatLines_congr {times times' : Nat → Nat} {k : Nat} {xs : List Text}
    (h : ∀ i, k ≤ i → i < k + xs.length → times i = times' i) :
    repeatLines times k xs = repeatLines times' k xs := by
  induction xs generalizing k with
  | nil => rfl
  | cons x xs ih =>
    rw [List.length_cons] at h
    rw [repeatLines, repeatLines, h k (Nat.le_refl k) (by omega),
      ih fun i hi hlt => h i (by omega) (by omega)]

theorem repeatLines_one {times : Nat → Nat} {k : Nat} (h : ∀ i, k ≤ i → times i = 1)
    (xs : List Text) : repeatLines times k xs = xs := by
  induction xs generalizing k with
  | nil => rfl
  | cons x xs ih =>
    rw [repeatLines, h k (Nat.le_refl k), ih fun i hi => h i (by omega)]
    rfl

theorem repeatLines_zero {times : Nat → Nat} {k : Nat} {xs : List Text}
    (h : ∀ i, k ≤ i → i < k + xs.length → times i = 0) : repeatLines times k xs = [] := by
  induction xs generalizing k with
  | nil => rfl
  | cons x xs ih =>
    rw [List.length_cons] at h
    rw [repeatLines, h k (Nat.le_refl k) (by omega),
      ih fun i hi hlt => h i (by omega) (by omega)]
    rfl

/-- From `t` to `u`, the code of line `k` and of the `old` lines below it, which is one and the
same, has become the code of line `k` and of the `new` lines below it. -/
def Text.RunBecomes (k old new : Nat) (t u : Text) : Prop :=
  ∃ above code below, above.length = k ∧
    codeLines t = above ++ (List.replicate (old + 1) code ++ below) ∧
    codeLines u = above ++ (List.replicate (new + 1) code ++ below)

namespace CaretBlock

open CaretAssertion

variable (b : CaretBlock)

/-- Whatever the expected text is and whatever follows, the lines of a block repeat the code of the
caret's line. -/
theorem codeLines_indented (rest : Text) : ∃ above below, above.length = b.above.count '\n' ∧
    ∀ space t : Text, '\n' ∉ space →
      Text.codeLines (b.above ++ b.head ++ (space ++ indented b.margin t) ++ rest) =
        above ++ (List.replicate (t.count '\n' + 1) b.before ++ below) := by
  obtain ⟨x, hx⟩ := b.above_feed
  refine ⟨Text.codeLines x, (Text.codeLines rest).tail, ?_, ?_⟩
  · rw [Text.length_codeLines, hx]
    simp
  · intro space t hspace
    have hhead : b.head ++ space = b.before ++ Comment.opener ++
        (List.replicate b.indent ' ' ++ "^?".toList ++ (if b.spaced then [' '] else []) ++
          space) := by
      simp [head, lead]
    have hmargin : b.margin =
        b.before ++ Comment.opener ++ (List.replicate b.indent ' ' ++ "   ".toList) := by
      simp [margin, lead]
    have hline : '\n' ∉ b.head ++ space := by simp [b.feed_not_mem_head, hspace]
    have htext : b.above ++ b.head ++ (space ++ indented b.margin t) ++ rest =
        x ++ '\n' :: (b.head ++ space ++ indented b.margin t ++ rest) := by
      simp [hx]
    rw [htext, Text.codeLines_append_feed,
      Text.codeLines_indented b.opens hhead hline hmargin b.feed_not_mem_margin t rest]

theorem codePart_margin : Text.codePart b.margin = b.before := by
  have hmargin : b.margin =
      b.before ++ Comment.opener ++ (List.replicate b.indent ' ' ++ "   ".toList) := by
    simp [margin, lead]
  rw [hmargin, Text.codePart_append_opener b.opens]

variable {b} {c : CaretAssertion} (h : b.Describes c)
include h

theorem respects_replacement {R : Text → Text → Prop} (actual : Text)
    (hR : ∀ space space' rest : Text, '\n' ∉ space → '\n' ∉ space' →
      R (b.above ++ b.head ++ (space ++ indented b.margin (Line.dropReturn b.written)) ++ rest)
        (b.above ++ b.head ++ (space' ++ indented b.margin actual) ++ rest)) :
    (c.replacement actual).Respects R b.text := by
  refine ⟨b.above ++ b.head, indented b.margin (Line.dropReturn b.written), b.prefix_text, ?_, ?_⟩
  · rw [replacement_eq h]
  · intro rest
    have hspace : '\n' ∉ (if b.spaced then [] else [' ']) := by split <;> decide
    have hR' := hR [] _ rest (by simp) hspace
    rw [replacement_eq h]
    exact hR'

theorem count_written : (Line.dropReturn b.written).count '\n' = c.expected.count '\n' := by
  rw [Text.count_dropReturn, h.expected, Text.count_bare]

/-- A replacement puts the code of the caret's line on as many lines as the new text has. -/
theorem respects_runBecomes (actual : Text) : (c.replacement actual).Respects
    (Text.RunBecomes c.line (c.expected.count '\n') (actual.count '\n')) b.text := by
  apply respects_replacement h
  intro space space' rest hspace hspace'
  obtain ⟨above, below, hlength, hcode⟩ := b.codeLines_indented rest
  refine ⟨above, b.before, below, hlength.trans h.line.symm, ?_, hcode space' actual hspace'⟩
  rw [hcode space _ hspace, count_written h]

theorem respects_code {actual : Text} (hsame : Text.allBlank (Text.codePart c.margin) = true ∨
      actual.count '\n' = c.expected.count '\n') :
    (c.replacement actual).Respects (fun t u => Text.code t = Text.code u) b.text := by
  apply respects_replacement h
  intro space space' rest hspace hspace'
  obtain ⟨above, below, -, hcode⟩ := b.codeLines_indented rest
  rw [Text.code, hcode space _ hspace, Text.code, hcode space' _ hspace', count_written h]
  rw [h.margin, b.codePart_margin] at hsame
  rcases hsame with hblank | hcount
  · simp only [List.filter_append, List.filter_replicate, hblank, Bool.not_true, Bool.false_eq_true,
      if_false]
  · rw [hcount]

end CaretBlock

theorem HasCaret.respects_runBecomes {source : Text} {c : CaretAssertion} (h : HasCaret source c)
    (actual : Text) : (c.replacement actual).Respects
      (Text.RunBecomes c.line (c.expected.count '\n') (actual.count '\n')) source := by
  obtain ⟨b, rfl, hb⟩ := h
  exact CaretBlock.respects_runBecomes hb actual

theorem HasCaret.respects_code {source : Text} {c : CaretAssertion} (h : HasCaret source c)
    {actual : Text} (hsame : Text.allBlank (Text.codePart c.margin) = true ∨
      actual.count '\n' = c.expected.count '\n') :
    (c.replacement actual).Respects (fun t u => Text.code t = Text.code u) source := by
  obtain ⟨b, rfl, hb⟩ := h
  exact CaretBlock.respects_code hb hsame

namespace CaretAssertion

/-- How often the code of line `k` stands in a source in which carets have been given new texts:
once, or, for a caret's line, on every line of the new text; and once less on a line on which an old
text goes on. -/
def copies (ps : List (CaretAssertion × Text)) (k : Nat) : Nat :=
  ((ps.find? fun p => p.1.line = k).map fun p => p.2.count '\n' + 1).getD 1 -
    (ps.any fun p => p.1.line < k && k ≤ p.1.lastLine).toNat

def EndBy (ps : List (CaretAssertion × Text)) (k : Nat) : Prop :=
  ∀ p ∈ ps, p.1.line < k ∧ p.1.lastLine ≤ k

section Concat

variable {ps : List (CaretAssertion × Text)} {p : CaretAssertion × Text} {k : Nat}

theorem EndBy.find?_eq_none (h : EndBy ps k) : (ps.find? fun q => q.1.line = k) = none := by
  rw [List.find?_eq_none]
  intro q hq
  have hlt := (h q hq).1
  simp only [decide_eq_true_eq]
  omega

theorem copies_eq_one (h : EndBy ps k) (hlast : ∀ q ∈ ps, q.1.lastLine < k) : copies ps k = 1 := by
  have hno : (ps.any fun q => q.1.line < k && k ≤ q.1.lastLine) = false := by
    rw [List.any_eq_false]
    intro q hq
    simp [hlast q hq]
  rw [copies, h.find?_eq_none, hno]
  rfl

theorem copies_concat_of_lt (h : k < p.1.line) : copies (ps ++ [p]) k = copies ps k := by
  have hne : p.1.line ≠ k := Nat.ne_of_gt h
  have hnot : ¬ p.1.line < k := Nat.not_lt.2 (Nat.le_of_lt h)
  simp [copies, List.find?_append, hne, hnot]

theorem copies_concat_line (h : EndBy ps p.1.line) :
    copies (ps ++ [p]) p.1.line = copies ps p.1.line + p.2.count '\n' := by
  have hle := Bool.toNat_le (ps.any fun q => q.1.line < p.1.line && p.1.line ≤ q.1.lastLine)
  simp only [copies, List.find?_append, h.find?_eq_none, List.any_append]
  simp
  omega

theorem copies_concat_further (h : EndBy ps p.1.line) (hlt : p.1.line < k)
    (hle : k ≤ p.1.lastLine) : copies (ps ++ [p]) k = 0 := by
  have hps : EndBy ps k := fun q hq => ⟨Nat.lt_trans (h q hq).1 hlt, by have := (h q hq).2; omega⟩
  have hne : p.1.line ≠ k := Nat.ne_of_lt hlt
  simp [copies, List.find?_append, hps.find?_eq_none, hne, hlt, hle]

theorem repeatLines_copies_concat (h : EndBy ps p.1.line) {above : List Text}
    (habove : above.length = p.1.line) (code : Text) (below : List Text) :
    repeatLines (copies ps) 0
        (above ++ (List.replicate (p.2.count '\n' + 1) code ++ below)) =
      repeatLines (copies (ps ++ [p])) 0
        (above ++ (List.replicate (p.1.expected.count '\n' + 1) code ++ below)) := by
  have hlast : p.1.lastLine = p.1.line + p.1.expected.count '\n' := rfl
  have hone (k : Nat) (hk : p.1.line < k) : copies ps k = 1 :=
    copies_eq_one (fun q hq => ⟨by have := (h q hq).1; omega, by have := (h q hq).2; omega⟩)
      fun q hq => by have := (h q hq).2; omega
  have hone' (k : Nat) (hk : p.1.lastLine < k) : copies (ps ++ [p]) k = 1 := by
    have hends : ∀ q ∈ ps ++ [p], q.1.line < k ∧ q.1.lastLine < k := by
      intro q hq
      rcases List.mem_append.1 hq with hq | hq
      · have hq := h q hq
        omega
      · obtain rfl := List.mem_singleton.1 hq
        omega
    exact copies_eq_one (fun q hq => ⟨(hends q hq).1, (hends q hq).2.le⟩) fun q hq => (hends q hq).2
  have hfront : repeatLines (copies (ps ++ [p])) 0 above = repeatLines (copies ps) 0 above :=
    repeatLines_congr fun i _ hi => copies_concat_of_lt (by omega)
  have hnone : repeatLines (copies (ps ++ [p])) (p.1.line + 1)
      (List.replicate (p.1.expected.count '\n') code) = [] := by
    refine repeatLines_zero fun i hi hlt => copies_concat_further h hi ?_
    rw [List.length_replicate] at hlt
    omega
  rw [repeatLines_append, repeatLines_append, repeatLines_append, repeatLines_append, hfront,
    Nat.zero_add, habove]
  congr 2
  · rw [List.replicate_succ, List.replicate_succ, repeatLines, repeatLines, hnone,
      repeatLines_one hone, copies_concat_line h, List.append_nil, List.replicate_append_replicate]
  · rw [List.length_replicate, List.length_replicate, repeatLines_one fun k hk => hone k (by omega),
      repeatLines_one fun k hk => hone' k (by omega)]

end Concat

/-- The code of `u` is that of `t`, repeated for the new texts of carets that stand from top to
bottom, each old text ending by the line of the next caret. -/
def Repeats (ps : List (CaretAssertion × Text)) (t u : Text) : Prop :=
  (ps.Pairwise fun p q => p.1.line < q.1.line ∧ p.1.lastLine ≤ q.1.line) →
    Text.codeLines u = repeatLines (copies ps) 0 (Text.codeLines t)

theorem repeats_nil (t : Text) : Repeats [] t t :=
  fun _ => (repeatLines_one (fun _ _ => rfl) _).symm

/-- The caret at the bottom gets its text first, which leaves those above it as they were. -/
theorem Repeats.concat {ps : List (CaretAssertion × Text)} {p : CaretAssertion × Text}
    {t u v : Text}
    (h : Text.RunBecomes p.1.line (p.1.expected.count '\n') (p.2.count '\n') t u)
    (hrest : Repeats ps u v) : Repeats (ps ++ [p]) t v := by
  intro hps
  obtain ⟨hps, -, hends⟩ := List.pairwise_append.1 hps
  obtain ⟨above, code, below, habove, ht, hu⟩ := h
  rw [hrest hps, hu, ht]
  exact repeatLines_copies_concat (fun q hq => hends q hq p (by simp)) habove code below

end CaretAssertion

end TypeComments
