import Mathlib.Data.List.TakeWhile
import TypeComments.Line

/-! The lines of texts that are put together from parts. A text has no line feed, or it is a line
without one, a line feed and a text; `linesFrom` follows this shape, and cutting a list of lines
cuts the text. -/

namespace TypeComments

/-- The lines of a text whose first line has the number `k` and starts at `start`. -/
def linesFrom (k start : Nat) (t : Text) : List Line := Line.layout k start (t.splitOn '\n')

theorem lines_eq_linesFrom (source : Text) : lines source = linesFrom 0 0 source := rfl

theorem linesFrom_last {p : Text} (hp : '\n' ∉ p) (k start : Nat) :
    linesFrom k start p = [⟨k, start, Line.dropReturn p⟩] := by
  rw [linesFrom, List.splitOn_eq_singleton hp]
  rfl

theorem linesFrom_feed {p : Text} (hp : '\n' ∉ p) (k start : Nat) (t : Text) :
    linesFrom k start (p ++ '\n' :: t) =
      ⟨k, start, Line.dropReturn p⟩ :: linesFrom (k + 1) (start + Text.size p + 1) t := by
  rw [linesFrom, List.splitOn_append_cons_self_of_not_mem hp]
  rfl

/-- Induction over the pieces of a text between the characters at which it is cut. -/
theorem Text.cut_induction {P : Text → Prop} (cut : Char → Bool)
    (last : ∀ p, (∀ c ∈ p, cut c = false) → P p)
    (next : ∀ p c t, (∀ c ∈ p, cut c = false) → cut c = true → P t → P (p ++ c :: t)) (t : Text) :
    P t := by
  induction hn : t.length using Nat.strongRecOn generalizing t with
  | ind n ih =>
    have hfront : ∀ c ∈ t.takeWhile (!cut ·), cut c = false := by
      intro c hc
      simpa using List.mem_takeWhile_imp hc
    have hsplit := List.takeWhile_append_dropWhile (p := (!cut ·)) (l := t)
    cases hrest : t.dropWhile (!cut ·) with
    | nil =>
      rw [hrest, List.append_nil] at hsplit
      exact hsplit ▸ last _ hfront
    | cons c rest =>
      have hc := List.head?_dropWhile_not (!cut ·) t
      rw [hrest] at hsplit hc
      have hlength := congrArg List.length hsplit
      simp only [List.length_append, List.length_cons] at hlength
      exact hsplit ▸ next _ c rest hfront (by simpa using hc) (ih rest.length (by omega) rest rfl)

theorem Text.feed_induction {P : Text → Prop} (last : ∀ p, '\n' ∉ p → P p)
    (feed : ∀ p t, '\n' ∉ p → P t → P (p ++ '\n' :: t)) (t : Text) : P t := by
  have hnone {p : Text} (hp : ∀ c ∈ p, decide (c = '\n') = false) : '\n' ∉ p := fun hmem => by
    simpa using hp _ hmem
  induction t using cut_induction (· = '\n') with
  | last p hp => exact last p (hnone hp)
  | next p c t hp hc ih =>
    obtain rfl := of_decide_eq_true hc
    exact feed p t (hnone hp) ih

theorem size_feed (t : Text) : Text.size ('\n' :: t) = Text.size t + 1 := by
  rw [Text.size_cons, Nat.add_comm]
  rfl

theorem Text.prefix_of_size_le {p q t : Text} (hp : p <+: t) (hq : q <+: t)
    (h : size p ≤ size q) : p <+: q := by
  rcases List.prefix_or_prefix_of_prefix hp hq with hpq | ⟨y, rfl⟩
  · exact hpq
  · rw [size_append] at h
    obtain rfl := size_eq_zero_iff.1 (by omega : size y = 0)
    exact ⟨[], by simp⟩

theorem Text.eq_of_size_eq {p q t : Text} (hp : p <+: t) (hq : q <+: t) (h : size p = size q) :
    p = q :=
  List.IsPrefix.eq_of_length_le (prefix_of_size_le hp hq h.le)
    (prefix_of_size_le hq hp h.ge).length_le

theorem prefix_of_prefix_cons {d : Char} {u p t : Text} (hu : d ∉ u) (h : u <+: p ++ d :: t) :
    u <+: p := by
  have hp : p <+: p ++ d :: t := List.prefix_append _ _
  rcases List.prefix_or_prefix_of_prefix h hp with hshort | ⟨q, rfl⟩
  · exact hshort
  · rw [List.prefix_append_right_inj] at h
    cases q with
    | nil => simp
    | cons c q =>
      obtain ⟨rfl, -⟩ := List.cons_prefix_cons.1 h
      exact absurd (by simp) hu

theorem prefix_dropReturn (p : Text) : Line.dropReturn p <+: p := by
  rcases Line.dropReturn_eq_or p with h | h
  · exact ⟨[], by rw [List.append_nil, ← h]⟩
  · exact ⟨['\r'], h.symm⟩

namespace Text

def firstLine (t : Text) : Text := t.takeWhile (· ≠ '\n')

theorem firstLine_last {p : Text} (hp : '\n' ∉ p) : firstLine p = p := by
  rw [firstLine, List.takeWhile_eq_self_iff]
  intro c hc
  have hne : c ≠ '\n' := fun h => hp (h ▸ hc)
  simp [hne]

theorem firstLine_feed {p : Text} (hp : '\n' ∉ p) (t : Text) : firstLine (p ++ '\n' :: t) = p := by
  have hall := List.takeWhile_eq_self_iff.1 (firstLine_last hp)
  rw [firstLine, List.takeWhile_append_of_pos hall]
  simp

theorem feed_not_mem_firstLine (t : Text) : '\n' ∉ firstLine t := by
  intro h
  have hne := List.mem_takeWhile_imp h
  simp at hne

theorem prefix_dropReturn_firstLine (t : Text) : Line.dropReturn (firstLine t) <+: t :=
  (prefix_dropReturn _).trans (List.takeWhile_prefix _)

end Text

theorem linesFrom_eq_cons (k start : Nat) (t : Text) :
    ∃ below, linesFrom k start t = ⟨k, start, Line.dropReturn (Text.firstLine t)⟩ :: below := by
  induction t using Text.feed_induction with
  | last p hp => exact ⟨[], by rw [linesFrom_last hp, Text.firstLine_last hp]⟩
  | feed p t hp _ =>
    exact ⟨linesFrom (k + 1) (start + Text.size p + 1) t,
      by rw [linesFrom_feed hp, Text.firstLine_feed hp]⟩

theorem length_linesFrom (k start : Nat) (t : Text) :
    (linesFrom k start t).length = t.count '\n' + 1 := by
  induction t using Text.feed_induction generalizing k start with
  | last p hp => rw [linesFrom_last hp, List.count_eq_zero.2 hp]; rfl
  | feed p t hp ih => simp [linesFrom_feed hp, ih, List.count_eq_zero.2 hp]

/-- What follows a line feed starts a line of its own. -/
theorem linesFrom_append_feed (k start : Nat) (x t : Text) :
    linesFrom k start (x ++ '\n' :: t) = linesFrom k start x ++
      linesFrom (k + x.count '\n' + 1) (start + Text.size x + 1) t := by
  induction x using Text.feed_induction generalizing k start with
  | last p hp =>
    rw [linesFrom_feed hp, linesFrom_last hp, List.count_eq_zero.2 hp]
    rfl
  | feed p x hp ih =>
    rw [List.append_assoc, List.cons_append, linesFrom_feed hp, linesFrom_feed hp, ih,
      List.cons_append]
    have hcount : (p ++ '\n' :: x).count '\n' = x.count '\n' + 1 := by
      simp [List.count_eq_zero.2 hp]
    have hsize : Text.size (p ++ '\n' :: x) = Text.size p + Text.size x + 1 := by
      rw [Text.size_append, size_feed, Nat.add_assoc]
    rw [hcount, hsize]
    congr 3 <;> omega

theorem map_text_linesFrom (k start k' start' : Nat) (t : Text) :
    (linesFrom k start t).map Line.text = (linesFrom k' start' t).map Line.text := by
  induction t using Text.feed_induction generalizing k start k' start' with
  | last p hp => simp [linesFrom_last hp]
  | feed p t hp ih =>
    rw [linesFrom_feed hp, linesFrom_feed hp, List.map_cons, List.map_cons, ih]

theorem eq_append_of_linesFrom {k start : Nat} {t : Text} {front below : List Line} {l : Line}
    (h : linesFrom k start t = front ++ l :: below) :
    ∃ above rest, t = above ++ rest ∧
      (above = [] ∧ front = [] ∨ ∃ x, above = x ++ ['\n'] ∧ front = linesFrom k start x) ∧
      front.length = above.count '\n' ∧
      linesFrom (k + front.length) (start + Text.size above) rest = l :: below := by
  induction front generalizing k start t with
  | nil => exact ⟨[], t, rfl, Or.inl ⟨rfl, rfl⟩, rfl, h⟩
  | cons l₀ front ih =>
    by_cases hfeed : '\n' ∈ t
    · obtain ⟨p, t, rfl, hp⟩ := List.eq_append_cons_of_mem hfeed
      rw [linesFrom_feed hp, List.cons_append] at h
      obtain ⟨hl, h⟩ := List.cons.inj h
      obtain ⟨above, rest, rfl, habove, hlength, hrest⟩ := ih h
      refine ⟨p ++ '\n' :: above, rest, by simp, Or.inr ?_, ?_, ?_⟩
      · rcases habove with ⟨rfl, rfl⟩ | ⟨x, rfl, rfl⟩
        · exact ⟨p, rfl, by rw [linesFrom_last hp, hl]⟩
        · exact ⟨p ++ '\n' :: x, by simp, by rw [linesFrom_feed hp, hl]⟩
      · simp [hlength, List.count_eq_zero.2 hp]
      · rw [← hrest, Text.size_append, size_feed, List.length_cons]
        congr 1 <;> omega
    · rw [linesFrom_last hfeed] at h
      simp at h

theorem text_infix_of_mem_linesFrom {k start : Nat} {t : Text} {l : Line}
    (h : l ∈ linesFrom k start t) : l.text <:+: t := by
  induction t using Text.feed_induction generalizing k start with
  | last p hp =>
    rw [linesFrom_last hp, List.mem_singleton] at h
    exact h ▸ (prefix_dropReturn p).isInfix
  | feed p t hp ih =>
    rw [linesFrom_feed hp, List.mem_cons] at h
    rcases h with rfl | h
    · exact ((prefix_dropReturn p).trans (List.prefix_append p _)).isInfix
    · have hsuffix : t <:+ p ++ '\n' :: t := ⟨p ++ ['\n'], by simp⟩
      exact (ih h).trans hsuffix.isInfix

/-- Lines as they stand in a text: numbered from `k` on, and no line feed in any of them. -/
def Consecutive (k : Nat) : List Line → Prop
  | [] => True
  | l :: below => l.number = k ∧ '\n' ∉ l.text ∧ Consecutive (k + 1) below

theorem consecutive_linesFrom (k start : Nat) (t : Text) : Consecutive k (linesFrom k start t) := by
  have hdrop {p : Text} (hp : '\n' ∉ p) : '\n' ∉ Line.dropReturn p := fun h =>
    hp ((prefix_dropReturn p).subset h)
  induction t using Text.feed_induction generalizing k start with
  | last p hp =>
    rw [linesFrom_last hp]
    exact ⟨rfl, hdrop hp, trivial⟩
  | feed p t hp ih =>
    rw [linesFrom_feed hp]
    exact ⟨rfl, hdrop hp, ih _ _⟩

/-- A line's number tells how many lines stand above it. -/
theorem number_of_lines_eq_append {source : Text} {front below : List Line} {l : Line}
    (h : lines source = front ++ l :: below) : l.number = front.length := by
  apply lines_getElem?_number
  rw [h]
  simp

theorem getLast?_front_iff {source : Text} {front below : List Line} {l above : Line}
    (h : lines source = front ++ l :: below) :
    front.getLast? = some above ↔ above ∈ lines source ∧ above.number + 1 = front.length := by
  rw [List.getLast?_eq_getElem?]
  constructor
  · intro hlast
    obtain ⟨hlt, -⟩ := List.getElem?_eq_some_iff.1 hlast
    have hget : (lines source)[front.length - 1]? = some above := by
      rw [h, List.getElem?_append_left hlt, hlast]
    have hnumber := lines_getElem?_number hget
    exact ⟨List.mem_of_getElem? hget, by omega⟩
  · rintro ⟨hmem, hnumber⟩
    obtain ⟨i, hi⟩ := List.getElem?_of_mem hmem
    have hnumber' := lines_getElem?_number hi
    have hindex : i = front.length - 1 := by omega
    subst hindex
    rwa [h, List.getElem?_append_left (by omega)] at hi

theorem Consecutive.of_append {k : Nat} {front ls : List Line} (h : Consecutive k (front ++ ls)) :
    Consecutive (k + front.length) ls := by
  induction front generalizing k with
  | nil => exact h
  | cons l front ih =>
    have hrest := ih h.2.2
    rwa [Nat.add_assoc, Nat.add_comm 1] at hrest

theorem Consecutive.le_number {k : Nat} {ls : List Line} (h : Consecutive k ls) {l : Line}
    (hl : l ∈ ls) : k ≤ l.number := by
  induction ls generalizing k with
  | nil => cases hl
  | cons l' ls ih =>
    obtain ⟨hnumber, -, hrest⟩ := h
    rcases List.mem_cons.1 hl with rfl | hl
    · exact Nat.le_of_eq hnumber.symm
    · exact Nat.le_of_succ_le (ih hrest hl)

theorem getElem?_lines_iff {source : Text} {i : Nat} {l : Line} :
    (lines source)[i]? = some l ↔ l ∈ lines source ∧ l.number = i := by
  constructor
  · intro h
    exact ⟨List.mem_of_getElem? h, lines_getElem?_number h⟩
  · rintro ⟨hl, rfl⟩
    obtain ⟨i, hi⟩ := List.mem_iff_getElem?.1 hl
    rw [lines_getElem?_number hi, hi]

theorem exists_line_of_le {source : Text} {i : Nat} {l : Line} (hl : l ∈ lines source)
    (h : i ≤ l.number) : ∃ l' ∈ lines source, l'.number = i := by
  obtain ⟨hlt, -⟩ := List.getElem?_eq_some_iff.1 (getElem?_lines_iff.2 ⟨hl, rfl⟩)
  have hi : i < (lines source).length := Nat.lt_of_le_of_lt h hlt
  exact ⟨_, getElem?_lines_iff.1 (List.getElem?_eq_getElem hi)⟩

theorem eq_of_number_eq {source : Text} {a b : Line} (ha : a ∈ lines source)
    (hb : b ∈ lines source) (h : a.number = b.number) : a = b := by
  have hi := getElem?_lines_iff.2 ⟨ha, h⟩
  rw [getElem?_lines_iff.2 ⟨hb, rfl⟩] at hi
  exact (Option.some.inj hi).symm

theorem start_le_of_mem_linesFrom {k start : Nat} {t : Text} {l : Line}
    (h : l ∈ linesFrom k start t) : start ≤ l.start := by
  induction t using Text.feed_induction generalizing k start with
  | last p hp =>
    rw [linesFrom_last hp, List.mem_singleton] at h
    rw [h]
  | feed p t hp ih =>
    rw [linesFrom_feed hp, List.mem_cons] at h
    rcases h with rfl | h
    · exact Nat.le_refl _
    · have hstart := ih h
      omega

/-- A line ends before the lines below it start: at least the line feed is in between. -/
theorem linesFrom_pairwise_stop (k start : Nat) (t : Text) :
    (linesFrom k start t).Pairwise fun a b => a.stop < b.start := by
  induction t using Text.feed_induction generalizing k start with
  | last p hp =>
    rw [linesFrom_last hp]
    exact List.pairwise_singleton _ _
  | feed p t hp ih =>
    rw [linesFrom_feed hp, List.pairwise_cons]
    refine ⟨?_, ih _ _⟩
    intro b hb
    have hstart := start_le_of_mem_linesFrom hb
    obtain ⟨r, hr⟩ := prefix_dropReturn p
    have hsize : Text.size (Line.dropReturn p) ≤ Text.size p := by
      conv => rhs; rw [← hr]
      simp
    simp only [Line.stop]
    omega

theorem stop_lt_start_of_lines {source : Text} {front below : List Line} {l l' : Line}
    (h : lines source = front ++ l :: below) (hl' : l' ∈ below) : l.stop < l'.start := by
  have hpairs : (lines source).Pairwise fun a b => a.stop < b.start :=
    linesFrom_pairwise_stop 0 0 source
  rw [h] at hpairs
  exact (List.pairwise_cons.1 (List.pairwise_append.1 hpairs).2.1).1 l' hl'

theorem stop_lt_start_of_number_lt {source : Text} {a b : Line} (ha : a ∈ lines source)
    (hb : b ∈ lines source) (h : a.number < b.number) : a.stop < b.start := by
  obtain ⟨hi, ha'⟩ := List.getElem?_eq_some_iff.1 (getElem?_lines_iff.2 ⟨ha, rfl⟩)
  obtain ⟨hj, hb'⟩ := List.getElem?_eq_some_iff.1 (getElem?_lines_iff.2 ⟨hb, rfl⟩)
  have hpairs : (lines source).Pairwise fun a b => a.stop < b.start :=
    linesFrom_pairwise_stop 0 0 source
  have hlt := List.pairwise_iff_getElem.1 hpairs _ _ hi hj h
  rwa [ha', hb'] at hlt

theorem stop_le_of_number_le {source : Text} {a b : Line} (ha : a ∈ lines source)
    (hb : b ∈ lines source) (h : a.number ≤ b.number) : a.stop ≤ b.stop := by
  rcases Nat.lt_or_eq_of_le h with hlt | heq
  · have hstart := stop_lt_start_of_number_lt ha hb hlt
    rw [Line.stop.eq_1 b]
    omega
  · rw [eq_of_number_eq ha hb heq]

theorem lines_pairwise_number (source : Text) :
    (lines source).Pairwise fun a b => a.number < b.number := by
  rw [List.pairwise_iff_getElem]
  intro i j hi hj hij
  rw [lines_getElem?_number (List.getElem?_eq_getElem hi),
    lines_getElem?_number (List.getElem?_eq_getElem hj)]
  exact hij

end TypeComments
