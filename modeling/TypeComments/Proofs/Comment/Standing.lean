import TypeComments.Assertion.Source
import TypeComments.Proofs.Comment

/-! Comments told by the physical lines of a source, apart from how they are found. A line is what
stands between two line feeds. A comment opens at the first `//` of a line, and is about the next
line if only blanks stand before it. -/

namespace TypeComments

/-- The line is what stands between two line feeds, without the carriage return that may end it. -/
structure Line.StandsIn (source : Text) (l : Line) : Prop where
  piece : (source.splitOn '\n')[l.number]? = some l.text ∧ l.text.getLast? ≠ some '\r' ∨
    (source.splitOn '\n')[l.number]? = some (l.text ++ ['\r'])
  start : l.start = Text.size (((source.splitOn '\n').take l.number).flatMap (· ++ ['\n']))

theorem mem_lines_iff {source : Text} {l : Line} : l ∈ lines source ↔ l.StandsIn source := by
  have hat : l ∈ lines source ↔ (lines source)[l.number]? = some l := by
    rw [getElem?_lines_iff]
    exact (and_iff_left rfl).symm
  rw [hat, lines_getElem?, Option.map_eq_some_iff]
  constructor
  · rintro ⟨piece, hpiece, hl⟩
    obtain ⟨-, hstart, htext⟩ := Line.mk.inj hl
    refine ⟨?_, hstart.symm⟩
    rcases Line.dropReturn_eq_iff.1 htext with ⟨rfl, hlast⟩ | rfl
    · exact Or.inl ⟨hpiece, hlast⟩
    · exact Or.inr hpiece
  · rintro ⟨⟨hpiece, hlast⟩ | hpiece, hstart⟩
    · exact ⟨_, hpiece, by rw [← hstart, Line.dropReturn_eq_iff.2 (Or.inl ⟨rfl, hlast⟩)]⟩
    · exact ⟨_, hpiece, by rw [← hstart, Line.dropReturn_eq_iff.2 (Or.inr rfl)]⟩

namespace Comment

/-- The comment opens at the first `//` of a line of the source. -/
structure StandsIn (source : Text) (c : Comment) : Prop where
  line : c.line.StandsIn source
  cut : c.line.text = c.before ++ "//".toList ++ c.body
  first : ∀ x y, c.line.text = x ++ "//".toList ++ y → c.before.length ≤ x.length

theorem mem_all_iff {source : Text} {c : Comment} : c ∈ all source ↔ c.StandsIn source := by
  rw [mem_all]
  constructor
  · rintro ⟨l, hl, hc⟩
    obtain ⟨rfl, hcut, hfirst⟩ := ofLine?_eq_some_iff.1 hc
    exact ⟨mem_lines_iff.1 hl, hcut, hfirst⟩
  · rintro ⟨hl, hcut, hfirst⟩
    exact ⟨c.line, mem_lines_iff.2 hl, ofLine?_eq_some_iff.2 ⟨rfl, hcut, hfirst⟩⟩

/-- With only blanks before it the comment is about the next line, else about its own. -/
def IsAbout (c : Comment) (k : Nat) : Prop :=
  (∀ ch ∈ c.before, Text.isBlank ch = true) ∧ k = c.line.number + 1 ∨
    (∃ ch ∈ c.before, Text.isBlank ch = false) ∧ k = c.line.number

theorem isAbout_iff {c : Comment} {k : Nat} : c.IsAbout k ↔ c.subject = k := by
  rw [IsAbout, subject]
  split
  · rename_i hblank
    have hall : ∀ ch ∈ c.before, Text.isBlank ch = true := List.all_eq_true.1 hblank
    constructor
    · rintro (⟨-, rfl⟩ | ⟨⟨ch, hch, hno⟩, -⟩)
      · rfl
      · rw [hall ch hch] at hno
        cases hno
    · rintro rfl
      exact Or.inl ⟨hall, rfl⟩
  · rename_i hblank
    have hsome : ∃ ch ∈ c.before, Text.isBlank ch = false := by
      simpa [Text.allBlank] using hblank
    constructor
    · rintro (⟨hall, -⟩ | ⟨-, rfl⟩)
      · exact absurd (List.all_eq_true.2 hall) hblank
      · rfl
    · rintro rfl
      exact Or.inr ⟨hsome, rfl⟩

/-- The comments of a source, from top to bottom, each with the line that it is about. -/
structure Lists (source : Text) (cs : List Comment) : Prop where
  mem : ∀ c, c ∈ cs ↔ c.StandsIn source
  ascending : cs.Pairwise fun c c' => c.line.number < c'.line.number
  about : ∀ c ∈ cs, ∀ k, c.subject = k ↔ c.IsAbout k

theorem all_lists (source : Text) : Lists source (all source) where
  mem _ := mem_all_iff
  ascending := all_pairwise_number source
  about _ _ _ := isAbout_iff.symm

end Comment

namespace CaretAssertion

/-- From line `k` on, a text goes on with `further`: each of these stands behind the margin on its
line, and the line after them does not start with the margin. -/
structure ContinuesAt (source margin : Text) (k : Nat) (further : List Text) : Prop where
  goes : ∀ (i : Nat) (t : Text), further[i]? = some t →
    ∃ l : Line, l.StandsIn source ∧ l.number = k + i ∧ l.text = margin ++ t
  stops : ∀ l : Line, l.StandsIn source → l.number = k + further.length → ¬ margin <+: l.text

theorem map_continuation_eq_iff {margin : Text} {ls : List Line} {further : List Text} :
    (continuation margin ls).map Prod.snd = further ↔
      (∀ (i : Nat) (t : Text), further[i]? = some t → ∃ l, ls[i]? = some l ∧ l.text = margin ++ t) ∧
        ∀ l, ls[further.length]? = some l → ¬ margin <+: l.text := by
  induction ls generalizing further with
  | nil =>
    cases further with
    | nil => simp [continuation]
    | cons t further =>
      simp only [continuation, List.map_nil, List.nil_eq, reduceCtorEq, false_iff, not_and]
      intro hgoes
      obtain ⟨l, hl, -⟩ := hgoes 0 t rfl
      cases hl
  | cons l ls ih =>
    rw [continuation]
    cases hstrip : Text.strip? margin l.text with
    | none =>
      have hnot : ¬ margin <+: l.text := by
        rintro ⟨rest, hrest⟩
        rw [Text.strip?_eq_some_iff.2 hrest.symm] at hstrip
        cases hstrip
      cases further with
      | nil => simpa using hnot
      | cons t further =>
        simp only [List.map_nil, List.nil_eq, reduceCtorEq, false_iff, not_and]
        intro hgoes
        obtain ⟨l', hl', ht⟩ := hgoes 0 t rfl
        obtain rfl := Option.some.inj hl'
        exact absurd ⟨t, ht.symm⟩ hnot
    | some rest =>
      have htext := Text.strip?_eq_some_iff.1 hstrip
      cases further with
      | nil =>
        simp only [List.map_cons, reduceCtorEq, false_iff, not_and]
        intro _ hstops
        exact hstops l rfl ⟨rest, htext.symm⟩
      | cons t further =>
        rw [List.map_cons, List.cons.injEq, ih]
        constructor
        · rintro ⟨rfl, hgoes, hstops⟩
          refine ⟨?_, hstops⟩
          rintro (_ | i) t ht
          · exact ⟨l, rfl, by rw [← Option.some.inj ht, htext]⟩
          · exact hgoes i t ht
        · rintro ⟨hgoes, hstops⟩
          obtain ⟨l', hl', ht⟩ := hgoes 0 t rfl
          obtain rfl := Option.some.inj hl'
          rw [htext] at ht
          exact ⟨List.append_cancel_left ht, fun i => hgoes (i + 1), hstops⟩

theorem continuesAt_iff {source margin : Text} {k : Nat} {further : List Text} :
    ContinuesAt source margin k further ↔
      (continuation margin ((lines source).drop k)).map Prod.snd = further := by
  have hat (i : Nat) (l : Line) : ((lines source).drop k)[i]? = some l ↔
      l.StandsIn source ∧ l.number = k + i := by
    rw [List.getElem?_drop, getElem?_lines_iff, mem_lines_iff]
  rw [map_continuation_eq_iff]
  simp only [hat, and_assoc, and_imp]
  exact ⟨fun h => ⟨h.goes, h.stops⟩, fun h => ⟨h.1, h.2⟩⟩

end CaretAssertion
end TypeComments
