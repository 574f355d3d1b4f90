import TypeComments.Fix
import TypeComments.Proofs.Assertion.Records
import TypeComments.Proofs.Comment
import TypeComments.Proofs.Directive.Grammar

/-! The text around a caret. A caret that is not on the first line cuts its source into the lines
above it, its own line up to the expected text, the expected text with a margin on each further
line, and what comes after; `CaretBlock` is such a cut. Main statements: every caret assertion of a
source has a block, and every block of a source is read as a caret assertion. -/

namespace TypeComments

namespace Text

/-- The text without the carriage returns that end its lines. -/
def bare (t : Text) : Text := ['\n'].intercalate ((t.splitOn '\n').map Line.dropReturn)

theorem bare_last {p : Text} (hp : '\n' ∉ p) : bare p = Line.dropReturn p := by
  simp [bare, List.splitOn_eq_singleton hp]

theorem bare_feed {p : Text} (hp : '\n' ∉ p) (t : Text) :
    bare (p ++ '\n' :: t) = Line.dropReturn p ++ '\n' :: bare t := by
  have hne : (t.splitOn '\n').map Line.dropReturn ≠ [] := by
    simp [List.splitOn_ne_nil]
  rw [bare, List.splitOn_append_cons_self_of_not_mem hp, List.map_cons,
    List.intercalate_cons_of_ne_nil hne]
  simp [bare]

end Text

namespace Line

theorem dropReturn_append {u : Text} (hu : u.getLast? ≠ some '\r') (p : Text) :
    dropReturn (u ++ p) = u ++ dropReturn p := by
  cases p using List.reverseRecOn with
  | nil => simp [dropReturn, hu]
  | append_singleton p c =>
    by_cases hc : c = '\r' <;> simp [dropReturn, hc, ← List.append_assoc]

theorem dropReturn_feed (p t : Text) :
    dropReturn (p ++ '\n' :: t) = p ++ '\n' :: dropReturn t := by
  have hfeed : (p ++ ['\n']).getLast? ≠ some '\r' := by simp
  simpa using dropReturn_append hfeed t

theorem dropReturn_of_not_mem {p : Text} (hp : '\r' ∉ p) : dropReturn p = p := by
  rw [dropReturn, if_neg]
  intro h
  exact hp (List.mem_of_getLast? h)

theorem dropReturn_append_return (p : Text) : dropReturn (p ++ ['\r']) = p := by
  simp [dropReturn]

end Line

namespace Text

theorem bare_of_not_mem {t : Text} (h : '\r' ∉ t) : bare t = t := by
  induction t using feed_induction with
  | last p hp => rw [bare_last hp, Line.dropReturn_of_not_mem h]
  | feed p t hp ih =>
    simp only [List.mem_append, List.mem_cons, not_or] at h
    rw [bare_feed hp, ih h.2.2, Line.dropReturn_of_not_mem h.1]

theorem bare_append_return {t : Text} (h : '\r' ∉ t) : bare (t ++ ['\r']) = t := by
  induction t using feed_induction with
  | last p hp =>
    have hline : '\n' ∉ p ++ ['\r'] := by simp [hp]
    rw [bare_last hline, Line.dropReturn_append_return]
  | feed p t hp ih =>
    simp only [List.mem_append, List.mem_cons, not_or] at h
    rw [List.append_assoc, List.cons_append, bare_feed hp, ih h.2.2, Line.dropReturn_of_not_mem h.1]

theorem count_dropReturn (p : Text) : (Line.dropReturn p).count '\n' = p.count '\n' := by
  rcases Line.dropReturn_eq_or p with h | h
  · rw [← h]
  · conv => rhs; rw [h]
    simp

theorem count_bare (t : Text) : (bare t).count '\n' = t.count '\n' := by
  induction t using feed_induction with
  | last p hp => rw [bare_last hp, count_dropReturn]
  | feed p t hp ih => simp [bare_feed hp, count_dropReturn, ih]

end Text

namespace Comment

/-- A `//` right after `before` is the first of its line. -/
def OpensAfter (before : Text) : Prop := Text.holds opener (before ++ ['/']) = false

theorem OpensAfter.length_le {before body x y : Text} (h : OpensAfter before)
    (hxy : before ++ opener ++ body = x ++ opener ++ y) : before.length ≤ x.length := by
  by_contra hlt
  -- An earlier `//` ends at the latest with the first slash of this one.
  have hx : x ++ opener <+: before ++ opener ++ body := ⟨y, hxy.symm⟩
  have hbefore : before ++ ['/'] <+: before ++ opener ++ body := ⟨'/' :: body, by simp [opener]⟩
  have hlength : (x ++ opener).length ≤ (before ++ ['/']).length := by
    have htwo : opener.length = 2 := rfl
    simp only [List.length_append, htwo, List.length_singleton]
    omega
  obtain ⟨y', hy'⟩ := List.prefix_of_prefix_length_le hx hbefore hlength
  have hholds : Text.holds opener (before ++ ['/']) = true := Text.holds_iff.2 ⟨x, y', hy'.symm⟩
  rw [h] at hholds
  cases hholds

theorem opensAfter_of_length_le {before body : Text}
    (h : ∀ x y, before ++ opener ++ body = x ++ opener ++ y → before.length ≤ x.length) :
    OpensAfter before := by
  rw [OpensAfter, Bool.eq_false_iff]
  intro hholds
  obtain ⟨x, y, hxy⟩ := Text.holds_iff.1 hholds
  have hlater : before ++ opener ++ body = x ++ opener ++ (y ++ '/' :: body) := by
    have hsplit : before ++ opener ++ body = before ++ ['/'] ++ '/' :: body := by simp [opener]
    rw [hsplit, hxy, List.append_assoc]
  have hle := h x _ hlater
  have hlength := congrArg List.length hxy
  have htwo : opener.length = 2 := rfl
  simp only [List.length_append, List.length_singleton, htwo] at hlength
  omega

theorem ofLine?_of_opensAfter {l : Line} {before body : Text} (h : OpensAfter before)
    (hl : l.text = before ++ opener ++ body) : ofLine? l = some ⟨l, before, body⟩ := by
  refine ofLine?_eq_some_iff.2 ⟨rfl, hl, ?_⟩
  intro x y hxy
  exact h.length_le (hl.symm.trans hxy)

end Comment

namespace CaretAssertion

theorem indented_feed {p : Text} (hp : '\n' ∉ p) (margin t : Text) :
    indented margin (p ++ '\n' :: t) = p ++ '\n' :: margin ++ indented margin t := by
  rw [indented_append, indented_of_not_mem hp]
  simp [indented]

theorem continuation_eq_nil {margin below : Text} (h : ¬ margin <+: below) (k start : Nat) :
    continuation margin (linesFrom k start below) = [] := by
  obtain ⟨ls, hls⟩ := linesFrom_eq_cons k start below
  rw [hls, continuation]
  cases hstrip : Text.strip? margin (Line.dropReturn (Text.firstLine below)) with
  | none => rfl
  | some rest =>
    have hmargin : margin <+: Line.dropReturn (Text.firstLine below) :=
      ⟨rest, (Text.strip?_eq_some_iff.1 hstrip).symm⟩
    exact absurd (hmargin.trans (Text.prefix_dropReturn_firstLine below)) h

theorem getD_last_cons (l l' : Line) (rest : Text) (ps : List (Line × Text)) :
    (((l', rest) :: ps).getLast?.map Prod.fst).getD l = (ps.getLast?.map Prod.fst).getD l' := by
  rw [List.getLast?_cons]
  cases ps.getLast? <;> rfl

/-- A text with margins is read back: its lines without carriage returns, and its end. -/
theorem continuation_linesFrom {margin after : Text} (hm : '\n' ∉ margin)
    (hlast : margin.getLast? ≠ some '\r')
    (hafter : after = [] ∨ ∃ below, after = '\n' :: below ∧ ¬ margin <+: below)
    (written : Text) {u : Text} (hu : '\n' ∉ u) (hulast : u.getLast? ≠ some '\r')
    (k start : Nat) :
    let l : Line := ⟨k, start, u ++ Line.dropReturn (Text.firstLine written)⟩
    ∃ below, linesFrom k start (u ++ indented margin written ++ after) = l :: below ∧
      Line.dropReturn (Text.firstLine written) ++
        (continuation margin below).flatMap (fun p => '\n' :: p.2) = Text.bare written ∧
      (((continuation margin below).getLast?.map Prod.fst).getD l).stop =
        start + Text.size u + Text.size (indented margin (Line.dropReturn written)) := by
  induction written using Text.feed_induction generalizing u k start with
  | last p hp =>
    have hup : '\n' ∉ u ++ p := by simp [hu, hp]
    have hdrop : '\n' ∉ Line.dropReturn p := fun h => hp ((prefix_dropReturn p).subset h)
    rw [Text.firstLine_last hp, Text.bare_last hp, indented_of_not_mem hp,
      indented_of_not_mem hdrop]
    rcases hafter with rfl | ⟨below, rfl, hbelow⟩
    · refine ⟨[], ?_, by simp [continuation], ?_⟩
      · rw [List.append_nil, linesFrom_last hup, Line.dropReturn_append hulast]
      · simp [continuation, Line.stop, Nat.add_assoc]
    · have hnone := continuation_eq_nil hbelow
      refine ⟨_, by rw [linesFrom_feed hup, Line.dropReturn_append hulast], ?_, ?_⟩
      · rw [hnone]
        simp
      · rw [hnone]
        simp [Line.stop, Nat.add_assoc]
  | feed p t hp ih =>
    have hup : '\n' ∉ u ++ p := by simp [hu, hp]
    obtain ⟨below, hlines, hexpected, hstop⟩ :=
      ih hm hlast (k + 1) (start + Text.size (u ++ p) + 1)
    have htext : u ++ indented margin (p ++ '\n' :: t) ++ after =
        u ++ p ++ '\n' :: (margin ++ indented margin t ++ after) := by
      rw [indented_feed hp]
      simp
    refine ⟨⟨k + 1, start + Text.size (u ++ p) + 1,
      margin ++ Line.dropReturn (Text.firstLine t)⟩ :: below, ?_, ?_, ?_⟩
    · rw [htext, linesFrom_feed hup, hlines, Text.firstLine_feed hp, Line.dropReturn_append hulast]
    all_goals rw [continuation, Text.strip?_append]
    · rw [Text.firstLine_feed hp, Text.bare_feed hp, ← hexpected]
      simp
    · rw [getD_last_cons, hstop, Line.dropReturn_feed, indented_feed hp]
      simp only [Text.size_append, size_feed, List.append_assoc, List.cons_append]
      omega

theorem exists_indented {margin : Text} (hm : '\n' ∉ margin) (t : Text) {u : Text}
    (hu : '\n' ∉ u) (h : u <+: t) :
    ∃ written after, t = u ++ indented margin written ++ after ∧
      (after = [] ∨ ∃ below, after = '\n' :: below ∧ ¬ margin <+: below) := by
  induction t using Text.feed_induction generalizing u with
  | last p hp =>
    obtain ⟨q, rfl⟩ := h
    have hq : '\n' ∉ q := fun hq => hp (List.mem_append_right u hq)
    exact ⟨q, [], by simp [indented_of_not_mem hq], Or.inl rfl⟩
  | feed p t hp ih =>
    obtain ⟨q, rfl⟩ : u <+: p := prefix_of_prefix_cons hu h
    have hq : '\n' ∉ q := fun hq => hp (List.mem_append_right u hq)
    by_cases hmore : margin <+: t
    · obtain ⟨written, after, rfl, hafter⟩ := ih hm hmore
      refine ⟨q ++ '\n' :: written, after, ?_, hafter⟩
      rw [indented_feed hq]
      simp
    · refine ⟨q, '\n' :: t, ?_, Or.inr ⟨t, rfl, hmore⟩⟩
      rw [indented_of_not_mem hq]

end CaretAssertion

/-- A source text cut at a caret. -/
structure CaretBlock where
  above : Text
  before : Text
  indent : Nat
  spaced : Bool
  /-- The expected text without its margins, with the carriage returns of the source. -/
  written : Text
  after : Text
  above_feed : ∃ x, above = x ++ ['\n']
  before_line : '\n' ∉ before
  opens : Comment.OpensAfter before
  nothing_of_not_spaced : spaced = false → Line.dropReturn (Text.firstLine written) = []
  after_ends : after = [] ∨ ∃ below, after = '\n' :: below ∧
    ¬ before ++ Comment.opener ++ List.replicate indent ' ' ++ "   ".toList <+: below

namespace CaretBlock

variable (b : CaretBlock)

/-- The caret's line up to the caret. -/
def lead : Text := b.before ++ Comment.opener ++ List.replicate b.indent ' '

def margin : Text := b.lead ++ "   ".toList

def head : Text := b.lead ++ "^?".toList ++ if b.spaced then [' '] else []

def text : Text := b.above ++ b.head ++ CaretAssertion.indented b.margin b.written ++ b.after

def upToEnd : Text :=
  b.above ++ b.head ++ CaretAssertion.indented b.margin (Line.dropReturn b.written)

/-- `c` is the assertion that the block makes. -/
structure Describes (c : CaretAssertion) : Prop where
  line : c.line = b.above.count '\n'
  expected : c.expected = Text.bare b.written
  range : c.range = ⟨Text.size (b.above ++ b.head), Text.size b.upToEnd⟩
  margin : c.margin = b.margin
  needsSpace : c.needsSpace = !b.spaced

theorem feed_not_mem_lead : '\n' ∉ b.lead := by
  have hopener : '\n' ∉ Comment.opener := by decide
  simp [lead, b.before_line, hopener]

theorem feed_not_mem_margin : '\n' ∉ b.margin := by
  have hspaces : '\n' ∉ "   ".toList := by decide
  simp only [margin, List.mem_append, b.feed_not_mem_lead, hspaces, or_self, not_false_eq_true]

theorem feed_not_mem_head : '\n' ∉ b.head := by
  have hmark : '\n' ∉ "^?".toList := by decide
  have hspace : '\n' ∉ (if b.spaced then [' '] else []) := by split <;> decide
  simp only [head, List.mem_append, b.feed_not_mem_lead, hmark, hspace, or_self,
    not_false_eq_true]

theorem margin_getLast? : b.margin.getLast? = some ' ' := by
  rw [margin, List.getLast?_append]
  rfl

theorem head_getLast? : b.head.getLast? = some (if b.spaced then ' ' else '?') := by
  cases hs : b.spaced <;> simp [head, hs]

theorem size_head : Text.size b.head = Text.size b.lead + if b.spaced then 3 else 2 := by
  have hmark : Text.size "^?".toList = 2 := rfl
  have hspace : Text.size [' '] = 1 := rfl
  rw [head, Text.size_append, Text.size_append, hmark]
  cases b.spaced
  · rfl
  · rw [if_pos rfl, if_pos rfl, hspace]

def rest : Text := if b.spaced then ' ' :: Line.dropReturn (Text.firstLine b.written) else []

theorem rest_drop : b.rest.drop 1 = Line.dropReturn (Text.firstLine b.written) := by
  cases hs : b.spaced with
  | true => simp [rest, hs]
  | false => simp [rest, hs, b.nothing_of_not_spaced hs]

def caretLine : Line :=
  ⟨b.above.count '\n', Text.size b.above, b.head ++ Line.dropReturn (Text.firstLine b.written)⟩

def comment : Comment :=
  ⟨b.caretLine, b.before, List.replicate b.indent ' ' ++ "^?".toList ++ b.rest⟩

theorem text_caretLine : b.caretLine.text = b.before ++ Comment.opener ++ b.comment.body := by
  cases hs : b.spaced with
  | true => simp [caretLine, comment, head, lead, rest, hs]
  | false => simp [caretLine, comment, head, lead, rest, hs, b.nothing_of_not_spaced hs]

/-- The lines of a block: some above, the caret's, and those below it from which the assertion that
the block describes is read. -/
theorem lines_text : ∃ front below, lines b.text = front ++ b.caretLine :: below ∧ front ≠ [] ∧
    ∀ above, b.Describes
      (CaretAssertion.ofComment (some above) b.comment b.indent b.rest below) := by
  obtain ⟨x, habove⟩ := b.above_feed
  have hcount : b.above.count '\n' = x.count '\n' + 1 := by simp [habove]
  have hsize : Text.size b.above = Text.size x + 1 := by
    rw [habove, Text.size_append, size_feed, Text.size_nil]
  have hmargin : b.margin.getLast? ≠ some '\r' := by simp [b.margin_getLast?]
  have hhead : b.head.getLast? ≠ some '\r' := by
    rw [b.head_getLast?]
    split <;> decide
  obtain ⟨below, hlines, hexpected, hstop⟩ := CaretAssertion.continuation_linesFrom
    b.feed_not_mem_margin hmargin b.after_ends b.written b.feed_not_mem_head hhead
    (b.above.count '\n') (Text.size b.above)
  have hfront : linesFrom 0 0 x ≠ [] := by
    obtain ⟨ls, hls⟩ := linesFrom_eq_cons 0 0 x
    simp [hls]
  refine ⟨linesFrom 0 0 x, below, ?_, hfront, ?_⟩
  · have htext : b.text =
        x ++ '\n' :: (b.head ++ CaretAssertion.indented b.margin b.written ++ b.after) := by
      simp [text, habove]
    rw [htext, lines_eq_linesFrom, linesFrom_append_feed, Nat.zero_add, Nat.zero_add, ← hcount,
      ← hsize, hlines]
    rfl
  · intro above
    have hstart : (if b.rest = [] then Text.size b.above + Text.size b.lead + 2
        else Text.size b.above + Text.size b.lead + 3) = Text.size (b.above ++ b.head) := by
      rw [Text.size_append, b.size_head]
      cases hs : b.spaced <;> simp [rest, hs, Nat.add_assoc]
    refine ⟨rfl, ?_, ?_, rfl, ?_⟩
    · rw [← hexpected, ← b.rest_drop]
      rfl
    · rw [upToEnd, Text.size_append (b.above ++ b.head), Text.size_append b.above, ← hstop,
        ← Text.size_append b.above, ← hstart]
      rfl
    · cases hs : b.spaced <;> simp [CaretAssertion.ofComment, rest, hs]

end CaretBlock

theorem Record.caret?_ofDirective_eq_some_iff {above : Option Line} {k : Comment}
    {below : List Line} {d : Directive} {c : CaretAssertion} :
    (ofDirective above k below d).caret? = some c ↔ ∃ indent rest, d = .caret indent rest ∧
      (rest = [] ∨ rest.head? = some ' ') ∧
      c = CaretAssertion.ofComment above k indent rest below := by
  constructor
  · intro h
    rcases d with (_ | _) | (_ | _) | _ | ⟨indent, rest⟩
    case caret =>
      rw [ofDirective] at h
      split at h
      · rename_i hrest
        obtain rfl := Option.some.inj h
        exact ⟨indent, rest, rfl, hrest, rfl⟩
      · cases h
    all_goals cases h
  · rintro ⟨indent, rest, rfl, hrest, rfl⟩
    rw [ofDirective, if_pos hrest]
    rfl

theorem mem_carets_ofSource {source : Text} {c : CaretAssertion} :
    c ∈ (Assertions.ofSource source).carets ↔ ∃ front l below k indent rest,
      lines source = front ++ l :: below ∧ Comment.ofLine? l = some k ∧
      Directive.ofBody? k.body = some (.caret indent rest) ∧ (rest = [] ∨ rest.head? = some ' ') ∧
      c = CaretAssertion.ofComment front.getLast? k indent rest below := by
  rw [Assertions.ofSource_eq_foldl, Assertions.carets_foldl, List.nil_append, List.mem_filterMap]
  constructor
  · rintro ⟨r, hr, hc⟩
    obtain ⟨front, l, below, k, d, hlines, hk, hd, rfl⟩ := Record.mem_ofLines.1 hr
    rw [Option.or_none] at hc
    obtain ⟨indent, rest, rfl, hrest, rfl⟩ := Record.caret?_ofDirective_eq_some_iff.1 hc
    exact ⟨front, l, below, k, indent, rest, hlines, hk, hd, hrest, rfl⟩
  · rintro ⟨front, l, below, k, indent, rest, hlines, hk, hd, hrest, rfl⟩
    refine ⟨_, Record.mem_ofLines.2 ⟨front, l, below, k, _, hlines, hk, hd, rfl⟩, ?_⟩
    rw [Option.or_none]
    exact Record.caret?_ofDirective_eq_some_iff.2 ⟨indent, rest, rfl, hrest, rfl⟩

theorem CaretAssertion.line_ofComment (above : Option Line) (k : Comment) (indent : Nat)
    (rest : Text) (below : List Line) :
    (ofComment above k indent rest below).line = k.line.number := by
  cases above <;> rfl

theorem Record.lines_of_carets (above : Option Line) (ls : List Line) :
    (((ofLines above ls).filterMap caret?).map CaretAssertion.line).Sublist
      (ls.map Line.number) := by
  induction ls generalizing above with
  | nil => simp [ofLines]
  | cons l below ih =>
    rw [ofLines, List.filterMap_append, List.map_append, List.map_cons, ← List.singleton_append]
    refine List.Sublist.append ?_ (ih (some l))
    cases hk : Comment.ofLine? l with
    | none => simp
    | some k =>
      cases hd : Directive.ofBody? k.body with
      | none => simp [hd]
      | some d =>
        cases hc : (ofDirective above k below d).caret? with
        | none => simp [hd, hc]
        | some c =>
          obtain ⟨indent, rest, rfl, -, rfl⟩ := caret?_ofDirective_eq_some_iff.1 hc
          simp [hd, hc, CaretAssertion.line_ofComment, Comment.line_of_ofLine? hk]

theorem carets_pairwise_line (source : Text) :
    (Assertions.ofSource source).carets.Pairwise fun c c' => c.line < c'.line := by
  have hlines := List.pairwise_map.2 (lines_pairwise_number source)
  rw [Assertions.ofSource_eq_foldl, Assertions.carets_foldl, List.nil_append]
  exact List.pairwise_map.1 (hlines.sublist (Record.lines_of_carets none (lines source)))

theorem line_pos_of_position {source : Text} {c : CaretAssertion}
    (h : c ∈ (Assertions.ofSource source).carets) (hposition : c.position.isSome = true) :
    0 < c.line := by
  obtain ⟨front, l, below, k, indent, rest, hlines, hk, -, -, rfl⟩ := mem_carets_ofSource.1 h
  have hnumber := number_of_lines_eq_append hlines
  rw [CaretAssertion.line_ofComment, Comment.line_of_ofLine? hk, hnumber]
  cases front with
  | nil => cases hposition
  | cons l₀ front => simp

/-- The assertions that the blocks of a source make. -/
def HasCaret (source : Text) (c : CaretAssertion) : Prop :=
  ∃ b : CaretBlock, b.text = source ∧ b.Describes c

theorem exists_caretBlock {above before rest t : Text} {indent k start : Nat} {l : Line}
    {below : List Line} (habove : ∃ x, above = x ++ ['\n']) (hopens : Comment.OpensAfter before)
    (ht : linesFrom k start t = l :: below)
    (hl : l.text = before ++ Comment.opener ++ (List.replicate indent ' ' ++ "^?".toList ++ rest))
    (hrest : rest = [] ∨ rest.head? = some ' ') :
    ∃ b : CaretBlock, b.text = above ++ t ∧ b.above = above ∧ b.before = before ∧
      b.indent = indent ∧ b.rest = rest := by
  obtain ⟨ls, hls⟩ := linesFrom_eq_cons k start t
  obtain ⟨hhead, -⟩ := List.cons.inj (ht.symm.trans hls)
  have htext : l.text <+: t := by
    rw [hhead]
    exact Text.prefix_dropReturn_firstLine t
  have hline : '\n' ∉ l.text := by
    rw [hhead]
    exact fun h => Text.feed_not_mem_firstLine t ((prefix_dropReturn _).subset h)
  set lead := before ++ Comment.opener ++ List.replicate indent ' ' with hlead
  set u := lead ++ "^?".toList ++ rest.take 1 with hu
  have hl' : l.text = u ++ rest.drop 1 := by
    rw [hl, hu, List.append_assoc _ (rest.take 1), List.take_append_drop]
    simp [hlead]
  have hbefore : '\n' ∉ before := fun h => hline (by rw [hl]; simp [h])
  have huline : '\n' ∉ u := fun h => hline (by rw [hl']; exact List.mem_append_left _ h)
  have hmargin : '\n' ∉ lead ++ "   ".toList := by
    have hlead : '\n' ∉ lead := fun h => huline (by simp [hu, h])
    simp [hlead]
  obtain ⟨written, after, rfl, hafter⟩ := CaretAssertion.exists_indented hmargin t huline
    ((List.prefix_append u _).trans (hl' ▸ htext))
  have htake : rest.take 1 = if !rest.isEmpty then [' '] else [] := by
    rcases rest with _ | ⟨c, rest⟩
    · rfl
    · obtain rfl : c = ' ' := by simpa using hrest
      rfl
  have hulast : u.getLast? ≠ some '\r' := by
    rw [hu, htake]
    cases rest <;> simp
  have hmlast : (lead ++ "   ".toList).getLast? ≠ some '\r' := by simp
  obtain ⟨ls', hls', -⟩ :=
    CaretAssertion.continuation_linesFrom hmargin hmlast hafter written huline hulast k start
  have hfirst : Line.dropReturn (Text.firstLine written) = rest.drop 1 := by
    obtain ⟨hl'', -⟩ := List.cons.inj (ht.symm.trans hls')
    rw [hl''] at hl'
    exact List.append_cancel_left hl'
  have hspaced : (!rest.isEmpty) = false → Line.dropReturn (Text.firstLine written) = [] := by
    intro h
    have hnil : rest = [] := by simpa using h
    rw [hfirst, hnil, List.drop_nil]
  refine ⟨⟨above, before, indent, !rest.isEmpty, written, after, habove, hbefore, hopens, hspaced,
    hafter⟩, ?_, rfl, rfl, rfl, ?_⟩
  · rw [hu, htake]
    simp [CaretBlock.text, CaretBlock.head, CaretBlock.margin, CaretBlock.lead, hlead]
  · rw [CaretBlock.rest, hfirst]
    rcases rest with _ | ⟨c, rest⟩
    · rfl
    · obtain rfl : c = ' ' := by simpa using hrest
      rfl

/-- A caret below the first line is that of a block. -/
theorem hasCaret_of_mem {source : Text} {c : CaretAssertion}
    (h : c ∈ (Assertions.ofSource source).carets) (hline : 0 < c.line) : HasCaret source c := by
  obtain ⟨front, l, below, k, indent, rest, hlines, hk, hd, hrest, rfl⟩ := mem_carets_ofSource.1 h
  obtain ⟨hkl, htext, hfirst⟩ := Comment.ofLine?_eq_some_iff.1 hk
  have hbody := Directive.Written.eq_of_caret (Directive.ofBody?_eq_some_iff.1 hd)
  have hnumber := number_of_lines_eq_append hlines
  have hfront : front ≠ [] := by
    rintro rfl
    change 0 < k.line.number at hline
    rw [hkl, hnumber] at hline
    cases hline
  obtain ⟨above, t, hsource, habove, hlength, ht⟩ := eq_append_of_linesFrom hlines
  have hfeed : ∃ x, above = x ++ ['\n'] := by
    rcases habove with ⟨-, hnil⟩ | ⟨x, hx, -⟩
    · exact absurd hnil hfront
    · exact ⟨x, hx⟩
  have hopens : Comment.OpensAfter k.before := by
    rw [htext] at hfirst
    exact Comment.opensAfter_of_length_le hfirst
  rw [hbody] at htext
  obtain ⟨b, hb, rfl, hbefore, rfl, rfl⟩ := exists_caretBlock hfeed hopens ht htext hrest
  obtain ⟨front', below', hlines', -, hdescribes⟩ := b.lines_text
  have hlength' : front'.length = front.length := by
    rw [hlength, ← number_of_lines_eq_append hlines']
    rfl
  rw [hb, ← hsource, hlines] at hlines'
  obtain ⟨-, hrest'⟩ := List.append_inj hlines' hlength'.symm
  obtain ⟨rfl, rfl⟩ := List.cons.inj hrest'
  have hcomment : k = b.comment := by
    cases k
    simp only [Comment.mk.injEq, CaretBlock.comment]
    exact ⟨hkl, hbefore.symm, hbody⟩
  rw [List.getLast?_eq_some_getLast hfront, hcomment]
  exact ⟨b, hb.trans hsource.symm, hdescribes (front.getLast hfront)⟩

theorem mem_carets_of_hasCaret {source : Text} {c : CaretAssertion} (h : HasCaret source c) :
    ∃ c' ∈ (Assertions.ofSource source).carets, c'.line = c.line ∧ c'.expected = c.expected ∧
      c'.range = c.range ∧ c'.margin = c.margin ∧ c'.needsSpace = c.needsSpace := by
  obtain ⟨b, rfl, hb⟩ := h
  obtain ⟨front, below, hlines, hfront, hdescribes⟩ := b.lines_text
  have hlast : front.getLast? = some (front.getLast hfront) := List.getLast?_eq_some_getLast hfront
  have hcomment : Comment.ofLine? b.caretLine = some b.comment :=
    Comment.ofLine?_of_opensAfter b.opens b.text_caretLine
  have hbody : Directive.ofBody? b.comment.body = some (.caret b.indent b.rest) :=
    Directive.ofBody?_eq_some_iff.2 (.caret b.indent b.rest)
  have hrest : b.rest = [] ∨ b.rest.head? = some ' ' := by
    cases hs : b.spaced <;> simp [CaretBlock.rest, hs]
  have hb' := hdescribes (front.getLast hfront)
  rw [← hlast] at hb'
  refine ⟨_, mem_carets_ofSource.2
    ⟨front, b.caretLine, below, b.comment, b.indent, b.rest, hlines, hcomment, hbody, hrest, rfl⟩,
    hb'.line.trans hb.line.symm, hb'.expected.trans hb.expected.symm, hb'.range.trans hb.range.symm,
    hb'.margin.trans hb.margin.symm, hb'.needsSpace.trans hb.needsSpace.symm⟩

theorem line_le_count_of_start_le {source p : Text} {c : CaretAssertion} (h : HasCaret source c)
    (hp : p <+: source) (hle : c.range.start ≤ Text.size p) : c.line ≤ p.count '\n' := by
  obtain ⟨b, rfl, hb⟩ := h
  have habove : b.above <+: b.text :=
    ⟨b.head ++ CaretAssertion.indented b.margin b.written ++ b.after, by simp [CaretBlock.text]⟩
  have hsize : Text.size b.above ≤ Text.size p := by
    rw [hb.range, Text.size_append] at hle
    exact Nat.le_of_add_right_le hle
  rw [hb.line]
  exact (Text.prefix_of_size_le habove hp hsize).sublist.count_le '\n'

theorem start_lt_of_line_lt {source : Text} {c c' : CaretAssertion} (h : HasCaret source c)
    (h' : HasCaret source c') (hlt : c.line < c'.line) : c.range.start < c'.range.start := by
  obtain ⟨b, rfl, hb⟩ := h
  have hstart : b.above ++ b.head <+: b.text :=
    ⟨CaretAssertion.indented b.margin b.written ++ b.after, by simp [CaretBlock.text]⟩
  by_contra hle
  rw [hb.range, Nat.not_lt] at hle
  have hcount := line_le_count_of_start_le h' hstart hle
  rw [List.count_append, List.count_eq_zero.2 b.feed_not_mem_head, Nat.add_zero, ← hb.line] at hcount
  exact Nat.not_le_of_lt hlt hcount

end TypeComments
