import TypeComments.Proofs.CaretBlock

/-! One caret rewritten. A new expected text changes its own block only: the blocks before it are
read up to the same end, since its line still does not go on with any of them, and the blocks after
it move down or up as a whole. -/

namespace TypeComments

namespace CaretAssertion

theorem count_indented {margin : Text} (hm : '\n' ∉ margin) (t : Text) :
    (indented margin t).count '\n' = t.count '\n' := by
  induction t using Text.feed_induction with
  | last p hp => rw [indented_of_not_mem hp]
  | feed p t hp ih => simp [indented_feed hp, ih, List.count_eq_zero.2 hm]

theorem getLast?_indented_ne {u margin : Text} (hu : u.getLast? ≠ some '\n')
    (hm : margin.getLast? = some ' ') (t : Text) :
    (u ++ indented margin t).getLast? ≠ some '\n' := by
  cases t using List.reverseRecOn with
  | nil => simpa using hu
  | append_singleton t c =>
    by_cases hc : c = '\n'
    · simp [indented, hc, List.getLast?_append, List.getLast?_cons, hm]
    · simp [indented, List.getLast?_append, hc]

end CaretAssertion

namespace CaretBlock

open CaretAssertion

variable (b : CaretBlock)

def ret : Text := if b.written.getLast? = some '\r' then ['\r'] else []

theorem ret_eq_or : b.ret = [] ∨ b.ret = ['\r'] := by
  unfold ret
  split
  · exact Or.inr rfl
  · exact Or.inl rfl

theorem eq_of_mem_ret {c : Char} (h : c ∈ b.ret) : c = '\r' := by
  rcases b.ret_eq_or with hr | hr <;> rw [hr] at h
  · cases h
  · exact List.mem_singleton.1 h

theorem feed_not_mem_ret : '\n' ∉ b.ret := fun h => absurd (b.eq_of_mem_ret h) (by decide)

theorem written_eq : b.written = Line.dropReturn b.written ++ b.ret := by
  unfold ret Line.dropReturn
  split
  · rename_i h
    obtain ⟨front, hfront⟩ := List.getLast?_eq_some_iff.1 h
    simp [hfront]
  · simp

theorem text_eq : b.text = b.upToEnd ++ b.ret ++ b.after := by
  rw [text, upToEnd]
  conv => lhs; rw [b.written_eq]
  rw [indented_append, indented_of_not_mem b.feed_not_mem_ret]
  simp

theorem prefix_text : b.upToEnd <+: b.text :=
  ⟨b.ret ++ b.after, by rw [b.text_eq, List.append_assoc]⟩

theorem text_eq_lead : ∃ t, b.text = b.above ++ (b.lead ++ '^' :: t) := by
  refine ⟨'?' :: (if b.spaced then [' '] else []) ++ indented b.margin b.written ++ b.after, ?_⟩
  simp [text, head]

theorem getLast?_upToEnd : b.upToEnd.getLast? ≠ some '\n' := by
  have hhead : (b.above ++ b.head).getLast? ≠ some '\n' := by
    rw [List.getLast?_append, b.head_getLast?, Option.some_or]
    split <;> decide
  exact getLast?_indented_ne hhead b.margin_getLast? _

theorem count_upToEnd : b.upToEnd.count '\n' = b.above.count '\n' + b.written.count '\n' := by
  rw [upToEnd, List.count_append, List.count_append, count_indented b.feed_not_mem_margin,
    Text.count_dropReturn, List.count_eq_zero.2 b.feed_not_mem_head, Nat.add_zero]

variable {b}

theorem prefix_ret {z : Text} (hz : '\n' ∉ z) (h : z <+: b.ret ++ b.after) : z <+: b.ret := by
  rcases b.after_ends with hafter | ⟨below, hafter, -⟩
  · rwa [hafter, List.append_nil] at h
  · rw [hafter] at h
    exact prefix_of_prefix_cons hz h

/-- Between the end of one block and the start of a later one a line ends. -/
theorem exists_gap {b' : CaretBlock} (htext : b.text = b'.text)
    (hlt : Text.size b.upToEnd < Text.size (b'.above ++ b'.head)) :
    ∃ gap, b'.above = b.upToEnd ++ gap ++ ['\n'] := by
  have hstart : b'.above ++ b'.head <+: b.text :=
    ⟨indented b'.margin b'.written ++ b'.after, by rw [htext, text]; simp⟩
  obtain ⟨z, hz⟩ : b.upToEnd <+: b'.above ++ b'.head :=
    Text.prefix_of_size_le b.prefix_text hstart (Nat.le_of_lt hlt)
  obtain ⟨x, hx⟩ := b'.above_feed
  rcases List.append_eq_append_iff.1 hz with ⟨gap, habove, -⟩ | ⟨y, hy, hhead⟩
  · cases gap using List.reverseRecOn with
    | nil =>
      rw [List.append_nil] at habove
      have hlast := b.getLast?_upToEnd
      rw [← habove, hx, List.getLast?_concat] at hlast
      exact absurd rfl hlast
    | append_singleton gap c =>
      rw [← List.append_assoc, hx] at habove
      obtain ⟨-, hc⟩ := List.append_inj' habove rfl
      obtain rfl := List.singleton_inj.1 hc
      exact ⟨gap, by rw [hx, habove, List.append_assoc]⟩
  · -- The expected text would end inside the other caret's line, before its own: only a carriage
    -- return can follow it there, and no caret line goes on so.
    have hfeed : '\n' ∉ z := fun h => b'.feed_not_mem_head (by rw [hhead]; simp [h])
    have hlast : z.getLast? ≠ some '\r' := by
      intro hz
      have hhead' := b'.head_getLast?
      rw [hhead, List.getLast?_append, hz, Option.some_or] at hhead'
      revert hhead'
      split <;> decide
    have hne : z ≠ [] := by
      rintro rfl
      rw [← hz, Text.size_append, Text.size_nil] at hlt
      omega
    have hret : z <+: b.ret ++ b.after := by
      have hprefix : b.upToEnd ++ z <+: b.upToEnd ++ (b.ret ++ b.after) := by
        rw [hz, ← List.append_assoc, ← b.text_eq]
        exact hstart
      exact (List.prefix_append_right_inj _).1 hprefix
    have hr : z.getLast hne = '\r' :=
      b.eq_of_mem_ret ((prefix_ret hfeed hret).subset (List.getLast_mem hne))
    exact absurd (by rw [List.getLast?_eq_some_getLast hne, hr]) hlast

/-- The line of a caret goes on with the expected text of another only if the part before its own
caret does. -/
theorem prefix_lead {e : CaretBlock} {t : Text} (h : e.margin <+: b.lead ++ '^' :: t) :
    e.margin <+: b.lead := by
  have hlead : b.lead <+: b.lead ++ '^' :: t := List.prefix_append _ _
  rcases List.prefix_or_prefix_of_prefix h hlead with hshort | ⟨q, hq⟩
  · exact hshort
  cases q with
  | nil => exact ⟨[], by rw [← hq, List.append_nil, List.append_nil]⟩
  | cons c q =>
    rw [← hq, List.prefix_append_right_inj, List.cons_prefix_cons] at h
    obtain ⟨rfl, -⟩ := h
    have hsplit : b.lead ++ '^' :: q =
        e.before ++ (Comment.opener ++ List.replicate e.indent ' ' ++ "   ".toList) := by
      rw [hq, margin, lead]
      simp
    -- The caret can only be in what stands before the other comment, which then has a `//`.
    rcases List.append_eq_append_iff.1 hsplit with ⟨y, hbefore, -⟩ | ⟨y, -, hspaces⟩
    · have hopens := e.opens
      rw [Comment.OpensAfter, Bool.eq_false_iff] at hopens
      refine absurd (Text.holds_iff.2 ?_) hopens
      exact ⟨b.before, List.replicate b.indent ' ' ++ y ++ ['/'], by simp [hbefore, lead]⟩
    · have hcaret : '^' ∈ Comment.opener ++ List.replicate e.indent ' ' ++ "   ".toList := by
        rw [hspaces]
        simp
      simp [Comment.opener] at hcaret

variable (b)

def rewrite (r : Text) : CaretBlock :=
  { b with spaced := true, written := r ++ b.ret, nothing_of_not_spaced := by simp }

@[simp] theorem lead_rewrite (r : Text) : (b.rewrite r).lead = b.lead := rfl

theorem head_rewrite (r : Text) :
    (b.rewrite r).head = b.head ++ if b.spaced then [] else [' '] := by
  have hhead : (b.rewrite r).head = b.lead ++ "^?".toList ++ [' '] := rfl
  rw [hhead, head]
  cases b.spaced <;> simp

theorem upToEnd_rewrite {r : Text} (hr : '\r' ∉ r) :
    (b.rewrite r).upToEnd = b.above ++ (b.rewrite r).head ++ indented b.margin r := by
  have hdrop : Line.dropReturn (r ++ b.ret) = r := by
    rcases b.ret_eq_or with h | h <;> rw [h]
    · rw [List.append_nil, Line.dropReturn_of_not_mem hr]
    · exact Line.dropReturn_append_return r
  have hend : (b.rewrite r).upToEnd =
      b.above ++ (b.rewrite r).head ++ indented b.margin (Line.dropReturn (r ++ b.ret)) := rfl
  rw [hend, hdrop]

theorem text_rewrite (r : Text) : (b.rewrite r).text =
    b.above ++ (b.rewrite r).head ++ indented b.margin r ++ (b.ret ++ b.after) := by
  have htext : (b.rewrite r).text =
      b.above ++ (b.rewrite r).head ++ indented b.margin (r ++ b.ret) ++ b.after := rfl
  rw [htext, indented_append, indented_of_not_mem b.feed_not_mem_ret]
  simp

theorem bare_rewrite {r : Text} (hr : '\r' ∉ r) : Text.bare (b.rewrite r).written = r := by
  have hwritten : (b.rewrite r).written = r ++ b.ret := rfl
  rw [hwritten]
  rcases b.ret_eq_or with h | h <;> rw [h]
  · rw [List.append_nil, Text.bare_of_not_mem hr]
  · exact Text.bare_append_return hr

variable {b}

theorem replacement_eq {c : CaretAssertion} (h : b.Describes c) (r : Text) :
    c.replacement r = ⟨⟨Text.size (b.above ++ b.head), Text.size (b.above ++ b.head) +
      Text.size (indented b.margin (Line.dropReturn b.written))⟩,
      (if b.spaced then [] else [' ']) ++ indented b.margin r⟩ := by
  rw [replacement, h.range, h.margin, h.needsSpace, upToEnd, Text.size_append (b.above ++ b.head)]
  cases b.spaced <;> rfl

/-- The replacement of an expected text rewrites the block. -/
theorem applyTo?_replacement {c : CaretAssertion} (h : b.Describes c) (r : Text) :
    (c.replacement r).applyTo? b.text = some (b.rewrite r).text := by
  have htext : b.text = b.above ++ b.head ++ indented b.margin (Line.dropReturn b.written) ++
      (b.ret ++ b.after) := by
    rw [text_eq, upToEnd, List.append_assoc]
  rw [replacement_eq h, htext, TextEdit.applyTo?_middle, text_rewrite, head_rewrite]
  simp

theorem describes_rewrite {c : CaretAssertion} (h : b.Describes c) {r : Text} (hr : '\r' ∉ r) :
    (b.rewrite r).Describes { c with
      expected := r
      range := ⟨Text.size (b.above ++ (b.rewrite r).head), Text.size (b.rewrite r).upToEnd⟩
      needsSpace := false } :=
  ⟨h.line, (b.bare_rewrite hr).symm, rfl, h.margin, rfl⟩

theorem exists_of_before {e : CaretBlock} (htext : e.text = b.text)
    (hlt : Text.size e.upToEnd < Text.size (b.above ++ b.head)) (r : Text) :
    ∃ e' : CaretBlock, e'.text = (b.rewrite r).text ∧ ∀ c, e.Describes c → e'.Describes c := by
  obtain ⟨gap, hgap⟩ := exists_gap htext hlt
  obtain ⟨v, hv⟩ := b.text_eq_lead
  obtain ⟨v', hv'⟩ := (b.rewrite r).text_eq_lead
  have hrest : e.ret ++ e.after = gap ++ '\n' :: (b.lead ++ '^' :: v) := by
    rw [hv, hgap, text_eq] at htext
    simpa using htext
  obtain ⟨g, rfl⟩ : e.ret <+: gap :=
    prefix_of_prefix_cons e.feed_not_mem_ret ⟨e.after, hrest⟩
  have hafter : e.after = g ++ '\n' :: (b.lead ++ '^' :: v) := by simpa using hrest
  have hends : ∃ below, g ++ '\n' :: (b.lead ++ '^' :: v') = '\n' :: below ∧
      ¬ e.margin <+: below := by
    rcases e.after_ends with hnil | ⟨below, hbelow, hnot⟩
    · simp [hafter] at hnil
    · rw [hafter] at hbelow
      cases g with
      | nil =>
        obtain ⟨-, rfl⟩ := List.cons.inj hbelow
        refine ⟨_, rfl, fun h => hnot ?_⟩
        exact (prefix_lead h).trans (List.prefix_append _ _)
      | cons c g =>
        obtain ⟨rfl, rfl⟩ := List.cons.inj hbelow
        refine ⟨_, rfl, fun h => hnot ?_⟩
        exact (prefix_of_prefix_cons e.feed_not_mem_margin h).trans (List.prefix_append _ _)
  let e' : CaretBlock := { e with
    after := g ++ '\n' :: (b.lead ++ '^' :: v')
    after_ends := Or.inr hends }
  refine ⟨e', ?_, fun c h => ⟨h.line, h.expected, h.range, h.margin, h.needsSpace⟩⟩
  have htext' : e'.text = e.upToEnd ++ e.ret ++ (g ++ '\n' :: (b.lead ++ '^' :: v')) := e'.text_eq
  have habove : (b.rewrite r).above = e.upToEnd ++ (e.ret ++ g) ++ ['\n'] := hgap
  rw [htext', hv', habove]
  simp

theorem exists_of_after {d : CaretBlock} (htext : b.text = d.text)
    (hlt : Text.size b.upToEnd < Text.size (d.above ++ d.head)) {r : Text} (hr : '\r' ∉ r) :
    ∃ d' : CaretBlock, d'.text = (b.rewrite r).text ∧
      d'.above.count '\n' + b.written.count '\n' = d.above.count '\n' + r.count '\n' ∧
      Text.size (b.above ++ b.head) ≤ Text.size (d'.above ++ d'.head) ∧
      ∀ c, d.Describes c → d'.Describes { c with
        line := d'.above.count '\n'
        range := ⟨Text.size (d'.above ++ d'.head), Text.size d'.upToEnd⟩ } := by
  obtain ⟨gap, hgap⟩ := exists_gap htext hlt
  have hrest : b.ret ++ b.after =
      gap ++ '\n' :: (d.head ++ indented d.margin d.written ++ d.after) := by
    rw [text_eq, text, hgap] at htext
    simpa using htext
  let d' : CaretBlock := { d with
    above := (b.rewrite r).upToEnd ++ gap ++ ['\n']
    above_feed := ⟨_, rfl⟩ }
  refine ⟨d', ?_, ?_, ?_, fun c h => ⟨rfl, h.expected, rfl, h.margin, h.needsSpace⟩⟩
  · have htext' : d'.text = (b.rewrite r).upToEnd ++ gap ++ ['\n'] ++ d.head ++
        indented d.margin d.written ++ d.after := rfl
    rw [htext', text_rewrite, upToEnd_rewrite b hr, hrest]
    simp
  · have hcount : (b.rewrite r).upToEnd.count '\n' = b.above.count '\n' + r.count '\n' := by
      rw [upToEnd_rewrite b hr, List.count_append, List.count_append,
        count_indented b.feed_not_mem_margin, List.count_eq_zero.2 (b.rewrite r).feed_not_mem_head,
        Nat.add_zero]
    have habove : d'.above = (b.rewrite r).upToEnd ++ gap ++ ['\n'] := rfl
    rw [habove, hgap, List.count_append, List.count_append, List.count_append, List.count_append,
      hcount, b.count_upToEnd]
    omega
  · have habove : d'.above = (b.rewrite r).upToEnd ++ gap ++ ['\n'] := rfl
    rw [habove, upToEnd_rewrite b hr, head_rewrite]
    simp only [Text.size_append]
    omega

end CaretBlock

/-- `c'` is `c` some lines further down, or up if `shift` is negative. -/
structure CaretAssertion.MovedTo (c c' : CaretAssertion) (shift : Int) : Prop where
  line : (c'.line : Int) = c.line + shift
  expected : c'.expected = c.expected
  margin : c'.margin = c.margin
  needsSpace : c'.needsSpace = c.needsSpace

theorem CaretAssertion.MovedTo.trans {c c' c'' : CaretAssertion} {shift shift' : Int}
    (h : c.MovedTo c' shift) (h' : c'.MovedTo c'' shift') : c.MovedTo c'' (shift' + shift) :=
  ⟨by have := h.line; have := h'.line; omega, h'.expected.trans h.expected,
    h'.margin.trans h.margin, h'.needsSpace.trans h.needsSpace⟩

/-- The replacement of one expected text: the caret has the new text, the carets above it are as
they were, and those below have moved. -/
theorem HasCaret.replace {source : Text} {c : CaretAssertion} (h : HasCaret source c) {r : Text}
    (hr : '\r' ∉ r) :
    ∃ fixed, (c.replacement r).applyTo? source = some fixed ∧
      (∃ c', HasCaret fixed c' ∧ c.range.start ≤ c'.range.start ∧
        { c with expected := r, needsSpace := false }.MovedTo c' 0) ∧
      (∀ e, HasCaret source e → e.range.stop < c.range.start → HasCaret fixed e) ∧
      ∀ d, HasCaret source d → c.range.stop < d.range.start →
        ∃ d', HasCaret fixed d' ∧ c.range.start ≤ d'.range.start ∧
          d.MovedTo d' (r.count '\n' - c.expected.count '\n') := by
  obtain ⟨b, rfl, hb⟩ := h
  refine ⟨(b.rewrite r).text, CaretBlock.applyTo?_replacement hb r, ?_, ?_, ?_⟩
  · have hb' := CaretBlock.describes_rewrite hb hr
    refine ⟨_, ⟨b.rewrite r, rfl, hb'⟩, ?_, by simp, rfl, rfl, rfl⟩
    rw [hb.range, CaretBlock.head_rewrite]
    simp only [Text.size_append]
    omega
  · rintro e ⟨be, htext, he⟩ hlt
    rw [he.range, hb.range] at hlt
    obtain ⟨be', htext', hbe'⟩ := CaretBlock.exists_of_before htext hlt r
    exact ⟨be', htext', hbe' e he⟩
  · rintro d ⟨bd, htext, hd⟩ hlt
    rw [hd.range, hb.range] at hlt
    obtain ⟨bd', htext', hcount, hstart, hbd'⟩ := CaretBlock.exists_of_after htext.symm hlt hr
    refine ⟨_, ⟨bd', htext', hbd' d hd⟩, ?_, ?_, rfl, rfl, rfl⟩
    · rw [hb.range]
      exact hstart
    · have hexpected := Text.count_bare b.written
      rw [← hb.expected] at hexpected
      have hline := hd.line
      simp only
      omega

end TypeComments
