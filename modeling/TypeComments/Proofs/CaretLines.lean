import TypeComments.Proofs.CaretBlock

/-! A caret assertion by lines. The expected text goes on as long as lines start with the margin, so
that the number of its line feeds tells on which line it ends. `OnLines` says where each part of an
assertion stands, and holds of every caret of a source that is not on the first line. -/

namespace TypeComments

namespace CaretAssertion

theorem count_of_strip? {margin t rest : Text} (ht : '\n' ∉ t)
    (h : Text.strip? margin t = some rest) : rest.count '\n' = 0 := by
  rw [Text.strip?_eq_some_iff.1 h] at ht
  exact List.count_eq_zero.2 fun hrest => ht (List.mem_append_right _ hrest)

theorem number_last_continuation (margin : Text) {l : Line} {below : List Line}
    (h : Consecutive (l.number + 1) below) :
    (((continuation margin below).getLast?.map Prod.fst).getD l).number =
      l.number + ((continuation margin below).flatMap fun p => '\n' :: p.2).count '\n' := by
  induction below generalizing l with
  | nil => rfl
  | cons l' below ih =>
    obtain ⟨hnumber, hline, hbelow⟩ := h
    rw [continuation]
    cases hstrip : Text.strip? margin l'.text with
    | none => rfl
    | some rest =>
      have hrest : rest.count '\n' = 0 := count_of_strip? hline hstrip
      rw [← hnumber] at hbelow
      simp only [getD_last_cons, ih hbelow, List.flatMap_cons, List.count_append,
        List.count_cons_self, hrest, hnumber]
      omega

theorem prefix_text_continuation (margin : Text) {k : Nat} {below : List Line}
    (h : Consecutive k below) {n : Nat}
    (hn : n = ((continuation margin below).flatMap fun p => '\n' :: p.2).count '\n') :
    (∀ l ∈ below, l.number < k + n → margin <+: l.text) ∧
      ∀ l ∈ below, l.number = k + n → ¬ margin <+: l.text := by
  induction below generalizing k n with
  | nil => simp
  | cons l' below ih =>
    obtain ⟨hnumber, hline, hbelow⟩ := h
    rw [continuation] at hn
    cases hstrip : Text.strip? margin l'.text with
    | none =>
      rw [hstrip] at hn
      obtain rfl : n = 0 := hn
      constructor
      · intro l hl hlt
        rcases List.mem_cons.1 hl with rfl | hl
        · omega
        · have hle := hbelow.le_number hl
          omega
      · intro l hl heq hmargin
        rcases List.mem_cons.1 hl with rfl | hl
        · obtain ⟨rest, hrest⟩ := hmargin
          rw [Text.strip?_eq_some_iff.2 hrest.symm] at hstrip
          cases hstrip
        · have hle := hbelow.le_number hl
          omega
    | some rest =>
      have hrest : rest.count '\n' = 0 := count_of_strip? hline hstrip
      simp only [hstrip, List.flatMap_cons, List.count_append, List.count_cons_self, hrest] at hn
      obtain ⟨hfurther, hnext⟩ := ih hbelow rfl
      constructor
      · intro l hl hlt
        rcases List.mem_cons.1 hl with rfl | hl
        · exact ⟨rest, (Text.strip?_eq_some_iff.1 hstrip).symm⟩
        · exact hfurther l hl (by omega)
      · intro l hl heq
        rcases List.mem_cons.1 hl with rfl | hl
        · omega
        · exact hnext l hl (by omega)

/-- The number of the line on which the expected text ends. -/
def lastLine (c : CaretAssertion) : Nat := c.line + c.expected.count '\n'

/-- Where the parts of a caret assertion stand on the lines of its source. -/
structure OnLines (source : Text) (c : CaretAssertion) : Prop where
  own : ∃ l k indent rest, l ∈ lines source ∧ l.number = c.line ∧ Comment.ofLine? l = some k ∧
    k.body = List.replicate indent ' ' ++ "^?".toList ++ rest ∧
    c.margin = k.before ++ Comment.opener ++ List.replicate indent ' ' ++ "   ".toList ∧
    (c.needsSpace = true ∧ rest = [] ∧
        c.range.start = k.start + Text.size Comment.opener + indent + Text.size "^?".toList ∨
      c.needsSpace = false ∧ rest.head? = some ' ' ∧
        c.range.start = k.start + Text.size Comment.opener + indent + Text.size "^? ".toList)
  further : ∀ l ∈ lines source, c.line < l.number → l.number ≤ c.lastLine → c.margin <+: l.text
  last : ∃ l ∈ lines source, l.number = c.lastLine ∧ c.range.stop = l.stop
  next : ∀ l ∈ lines source, l.number = c.lastLine + 1 → ¬ c.margin <+: l.text

theorem mem_last_continuation (margin : Text) (l : Line) (below : List Line) :
    ((continuation margin below).getLast?.map Prod.fst).getD l ∈ l :: below := by
  induction below generalizing l with
  | nil => simp [continuation]
  | cons l' below ih =>
    rw [continuation]
    cases Text.strip? margin l'.text with
    | none => simp
    | some rest =>
      rw [getD_last_cons]
      exact List.mem_cons_of_mem _ (ih l')

theorem onLines_ofComment {source : Text} {front below : List Line} {above : Line} {k : Comment}
    {indent : Nat} {rest : Text} (hlines : lines source = front ++ k.line :: below)
    (hk : Comment.ofLine? k.line = some k)
    (hbody : k.body = List.replicate indent ' ' ++ "^?".toList ++ rest)
    (hrest : rest = [] ∨ rest.head? = some ' ') :
    (ofComment (some above) k indent rest below).OnLines source := by
  have hconsecutive : Consecutive 0 (lines source) := consecutive_linesFrom 0 0 source
  rw [hlines] at hconsecutive
  obtain ⟨hnumber, hline, hbelow⟩ := hconsecutive.of_append
  rw [← hnumber] at hbelow
  set c := ofComment (some above) k indent rest below with hc
  have hlast : c.lastLine = k.line.number +
      ((continuation c.margin below).flatMap fun p => '\n' :: p.2).count '\n' := by
    have hfeed : '\n' ∉ rest.drop 1 := by
      intro h
      rw [Comment.text_of_ofLine? hk, hbody] at hline
      exact hline (by simp [List.mem_of_mem_drop h])
    have hexpected : c.expected = rest.drop 1 ++
        (continuation c.margin below).flatMap fun p => '\n' :: p.2 := rfl
    rw [lastLine, hexpected, List.count_append, List.count_eq_zero.2 hfeed, Nat.zero_add]
    rfl
  obtain ⟨hfurther, hnext⟩ := prefix_text_continuation c.margin hbelow rfl
  -- Lines below the caret's are those with a higher number.
  have hmem (l : Line) (hl : l ∈ lines source) (hlt : k.line.number < l.number) : l ∈ below := by
    have hpairs := lines_pairwise_number source
    rw [hlines] at hpairs hl
    have habove := (List.pairwise_append.1 hpairs).2.2
    rcases List.mem_append.1 hl with hl | hl
    · have hle := habove l hl k.line (by simp)
      omega
    · rcases List.mem_cons.1 hl with rfl | hl
      · omega
      · exact hl
  constructor
  case own =>
    refine ⟨k.line, k, indent, rest, by simp [hlines], rfl, hk, hbody, rfl, ?_⟩
    have hstart : c.range.start = if rest = [] then k.start + Text.size Comment.opener + indent + 2
        else k.start + Text.size Comment.opener + indent + 3 := by
      simp [hc, ofComment, Comment.start, Nat.add_assoc]
    rcases rest with _ | ⟨d, rest⟩
    · exact Or.inl ⟨rfl, rfl, hstart⟩
    · exact Or.inr ⟨rfl, by simpa using hrest, hstart⟩
  case further =>
    intro l hl hlt hle
    exact hfurther l (hmem l hl hlt) (by omega)
  case last =>
    refine ⟨_, ?_, (number_last_continuation c.margin hbelow).trans hlast.symm, rfl⟩
    rw [hlines]
    exact List.mem_append_right _ (mem_last_continuation _ _ _)
  case next =>
    intro l hl heq
    exact hnext l (hmem l hl (by omega)) (by omega)

/-- Every caret below the first line is laid out so. -/
theorem onLines_of_mem {source : Text} {c : CaretAssertion}
    (h : c ∈ (Assertions.ofSource source).carets) (hline : 0 < c.line) : c.OnLines source := by
  obtain ⟨front, l, below, k, indent, rest, hlines, hk, hd, hrest, rfl⟩ := mem_carets_ofSource.1 h
  obtain rfl := Comment.line_of_ofLine? hk
  have hbody := Directive.Written.eq_of_caret (Directive.ofBody?_eq_some_iff.1 hd)
  rw [line_ofComment, number_of_lines_eq_append hlines] at hline
  have hlast := List.getLast?_eq_some_getLast (List.ne_nil_of_length_pos hline)
  rw [hlast]
  exact onLines_ofComment hlines hk hbody hrest

end CaretAssertion
end TypeComments
