import Mathlib.Data.List.Chain
import Mathlib.Data.List.DropRight
import TypeComments.Proofs.Lines
import TypeComments.TypeText.Match

/-! Texts up to their gaps, in terms of the words between them. Evening out the gaps of a text
writes its words with one space after each but the last, and trims the ends. Trimming may take away
more than gaps, such as a word of tabs, but what it leaves is still single-spaced, so that doing it
all again changes nothing. -/

namespace TypeComments

namespace Text

def Trimmed (t : Text) : Prop := ∀ c, c ∈ t.head? ∨ c ∈ t.getLast? → isBlank c = false

theorem trimmed_trim (t : Text) : Trimmed (trim t) := by
  intro c hc
  have hne : trim t ≠ [] := by
    rintro hnil
    simp [hnil] at hc
  obtain ⟨r, hr⟩ := List.rdropWhile_prefix isBlank (trimStart t)
  rcases hc with hc | hc
  · have hhead : (trimStart t).head? = some c := by
      rw [← hr, List.head?_append]
      exact congrArg (Option.or · _) hc
    have hnot := List.head?_dropWhile_not isBlank t
    rw [← trimStart, hhead] at hnot
    exact hnot
  · have hlast := List.rdropWhile_last_not isBlank (trimStart t) hne
    obtain rfl : (trim t).getLast hne = c := by
      simpa [List.getLast?_eq_some_getLast hne] using hc
    exact Bool.eq_false_iff.2 hlast

theorem Trimmed.trim_eq {t : Text} (h : Trimmed t) : trim t = t := by
  have hstart : trimStart t = t := by
    rw [trimStart, List.dropWhile_eq_self_iff]
    intro hpos
    simp [h t[0] (Or.inl (List.head?_eq_getElem? ▸ List.getElem?_eq_getElem hpos))]
  have hend : t.rdropWhile isBlank = t := by
    rw [List.rdropWhile_eq_self_iff]
    intro hne
    simp [h (t.getLast hne) (Or.inr (List.getLast?_eq_some_getLast hne))]
  rw [trim, hstart]
  exact hend

theorem isInfix_trim (t : Text) : trim t <:+: t :=
  (List.rdropWhile_prefix isBlank (trimStart t)).isInfix.trans
    (List.dropWhile_suffix isBlank).isInfix

end Text

namespace TypeText

def IsRun (w : Text) : Prop := ∀ c ∈ w, isGap c = true

def Unbroken (p : Text) : Prop := ∀ c ∈ p, isGap c = false

/-- The pieces of a text between its gaps, those without a character left out. -/
def words (t : Text) : List Text := (t.splitOnP isGap).filter (· ≠ [])

def spaced (ws : List Text) : Text := [' '].intercalate ws

theorem isBlank_of_isGap {c : Char} (h : isGap c = true) : Text.isBlank c = true := by
  simp only [isGap, Bool.or_eq_true, decide_eq_true_eq] at h
  rcases h with rfl | rfl <;> decide

/-- Induction over the words of a text and the gaps after them. -/
theorem gap_induction {P : Text → Prop} (last : ∀ p, Unbroken p → P p)
    (gap : ∀ p c t, Unbroken p → isGap c = true → P t → P (p ++ c :: t)) (t : Text) : P t :=
  Text.cut_induction isGap last gap t

section Words

theorem words_append_gap {c : Char} (hc : isGap c = true) (a b : Text) :
    words (a ++ c :: b) = words a ++ words b := by
  rw [words, List.splitOnP_append_cons _ _ hc, List.filter_append]
  rfl

theorem words_of_unbroken {p : Text} (hp : Unbroken p) (hne : p ≠ []) : words p = [p] := by
  rw [words, List.splitOnP_eq_singleton hp]
  simp [hne]

theorem words_run_append {w : Text} (hw : IsRun w) (t : Text) : words (w ++ t) = words t := by
  induction w with
  | nil => rfl
  | cons c w ih =>
    have hrest : IsRun w := fun d hd => hw d (by simp [hd])
    have hgap := words_append_gap (hw c (by simp)) [] (w ++ t)
    exact hgap.trans (ih hrest)

theorem words_append_run {w : Text} (hw : IsRun w) (hne : w ≠ []) (a b : Text) :
    words (a ++ w ++ b) = words a ++ words b := by
  cases w with
  | nil => exact absurd rfl hne
  | cons c w =>
    have hrest : IsRun w := fun d hd => hw d (by simp [hd])
    rw [List.append_assoc, List.cons_append, words_append_gap (hw c (by simp)),
      words_run_append hrest]

theorem words_append_run_end {w : Text} (hw : IsRun w) (a : Text) : words (a ++ w) = words a := by
  by_cases hne : w = []
  · rw [hne, List.append_nil]
  · have hwords := words_append_run hw hne a []
    simpa [words] using hwords

theorem mem_words_of_unbroken {p q : Text} (hq : Unbroken q) : p ∈ words q ↔ p = q ∧ q ≠ [] := by
  by_cases hne : q = []
  · simp [hne, words]
  · simp [words_of_unbroken hq hne, hne]

theorem of_mem_words {t p : Text} (h : p ∈ words t) : p ≠ [] ∧ Unbroken p ∧ p ⊆ t := by
  induction t using gap_induction with
  | last q hq =>
    obtain ⟨rfl, hne⟩ := (mem_words_of_unbroken hq).1 h
    exact ⟨hne, hq, List.Subset.refl _⟩
  | gap q c t hq hc ih =>
    rw [words_append_gap hc, List.mem_append] at h
    rcases h with h | h
    · obtain ⟨rfl, hne⟩ := (mem_words_of_unbroken hq).1 h
      exact ⟨hne, hq, List.subset_append_left _ _⟩
    · obtain ⟨hne, hp, hsub⟩ := ih h
      exact ⟨hne, hp, fun d hd => by simp [hsub hd]⟩

end Words

section Spaced

theorem spaced_cons (p : Text) (ws : List Text) :
    spaced (p :: ws) = p ++ ws.flatMap (' ' :: ·) := by
  induction ws generalizing p with
  | nil => simp [spaced]
  | cons q ws ih =>
    have hq : spaced (q :: ws) = q ++ ws.flatMap (' ' :: ·) := ih q
    rw [spaced, List.intercalate_cons_cons, ← spaced, hq]
    simp

theorem spaced_cons_of_ne_nil {ws : List Text} (h : ws ≠ []) (p : Text) :
    spaced (p :: ws) = p ++ ' ' :: spaced ws := by
  rw [spaced, List.intercalate_cons_of_ne_nil h, ← spaced]
  simp

/-- Words can be told apart again once they are written with spaces. -/
theorem words_spaced {ws : List Text} (h : ∀ p ∈ ws, p ≠ [] ∧ Unbroken p) :
    words (spaced ws) = ws := by
  induction ws with
  | nil => rfl
  | cons p ws ih =>
    obtain ⟨hne, hp⟩ := h p (by simp)
    have hrest := ih fun q hq => h q (by simp [hq])
    by_cases hws : ws = []
    · rw [hws, spaced_cons, List.flatMap_nil, List.append_nil, words_of_unbroken hp hne]
    · rw [spaced_cons_of_ne_nil hws, words_append_gap rfl, words_of_unbroken hp hne, hrest]
      rfl

end Spaced

section Squeeze

theorem squeeze_append_unbroken {p : Text} (hp : Unbroken p) (t : Text) :
    squeeze false (p ++ t) = p ++ squeeze false t := by
  induction p with
  | nil => rfl
  | cons c p ih =>
    have hc : isGap c = false := hp c (by simp)
    rw [List.cons_append, squeeze, if_neg (by simp [hc]), if_neg (by simp),
      ih fun d hd => hp d (by simp [hd])]
    rfl

theorem squeeze_unbroken {p : Text} (hp : Unbroken p) : squeeze false p = p := by
  simpa using squeeze_append_unbroken hp []

theorem squeeze_true_append {p : Text} (hp : Unbroken p) (hne : p ≠ []) (t : Text) :
    squeeze true (p ++ t) = ' ' :: p ++ squeeze false t := by
  cases p with
  | nil => exact absurd rfl hne
  | cons d p =>
    have hd : isGap d = false := hp d (by simp)
    rw [List.cons_append, squeeze, if_neg (by simp [hd]), if_pos rfl,
      squeeze_append_unbroken fun c hc => hp c (by simp [hc])]
    rfl

theorem squeeze_true (t : Text) : squeeze true t = (words t).flatMap (' ' :: ·) := by
  induction t using gap_induction with
  | last p hp =>
    by_cases hne : p = []
    · simp [hne, words]
    · have hend := squeeze_true_append hp hne []
      simpa [words_of_unbroken hp hne] using hend
  | gap p c t hp hc ih =>
    rw [words_append_gap hc]
    by_cases hne : p = []
    · rw [hne, List.nil_append, squeeze_cons_gap hc, ih]
      rfl
    · rw [squeeze_true_append hp hne, squeeze_cons_gap hc, ih, words_of_unbroken hp hne]
      simp

theorem squeeze_false {t : Text} (hhead : ∀ c ∈ t.head?, isGap c = false) :
    squeeze false t = spaced (words t) := by
  induction t using gap_induction with
  | last p hp =>
    by_cases hne : p = []
    · rw [hne]
      rfl
    · rw [words_of_unbroken hp hne, squeeze_unbroken hp, spaced_cons, List.flatMap_nil,
        List.append_nil]
  | gap p c t hp hc _ =>
    have hne : p ≠ [] := by
      rintro rfl
      exact Bool.false_ne_true ((hhead c rfl).symm.trans hc)
    rw [squeeze_append_unbroken hp, squeeze_cons_gap hc, squeeze_true, words_append_gap hc,
      words_of_unbroken hp hne, List.singleton_append, spaced_cons]

end Squeeze

/-- The words of a text with single spaces between them, trimmed. -/
theorem normalize_eq_trim_spaced (t : Text) : normalize t = Text.trim (spaced (words t)) := by
  have hlead : IsRun (t.takeWhile isGap) := fun c hc => List.mem_takeWhile_imp hc
  have hwords := words_run_append hlead (t.dropWhile isGap)
  rw [List.takeWhile_append_dropWhile] at hwords
  have hhead := List.head?_dropWhile_not isGap t
  rw [normalize, hwords, squeeze_false]
  intro c hc
  rwa [hc] at hhead

section SingleSpaced

def SingleSpaced (t : Text) : Prop :=
  '\n' ∉ t ∧ t.IsChain fun c d => isGap c = true → isGap d = false

theorem SingleSpaced.of_isInfix {s t : Text} (h : SingleSpaced t) (hs : s <:+: t) :
    SingleSpaced s :=
  ⟨fun hfeed => h.1 (hs.subset hfeed), List.IsChain.infix h.2 hs⟩

theorem singleSpaced_squeeze (w : Bool) (t : Text) : SingleSpaced (squeeze w t) := by
  induction t generalizing w with
  | nil => exact ⟨by simp, List.isChain_nil⟩
  | cons c t ih =>
    by_cases hc : isGap c = true
    · rw [squeeze_cons_gap hc]
      exact ih true
    · rw [Bool.not_eq_true] at hc
      obtain ⟨hfeed, hchain⟩ := ih false
      have hne : c ≠ '\n' := by
        rintro rfl
        simp [isGap] at hc
      have hword : SingleSpaced (c :: squeeze false t) :=
        ⟨by simp [hfeed, Ne.symm hne], List.isChain_cons.2 ⟨by simp [hc], hchain⟩⟩
      cases w with
      | false => simpa [squeeze, hc] using hword
      | true =>
        have hgap : SingleSpaced (' ' :: c :: squeeze false t) :=
          ⟨by simp [hfeed, Ne.symm hne], List.isChain_cons_cons.2 ⟨fun _ => hc, hword.2⟩⟩
        simpa [squeeze, hc] using hgap

theorem SingleSpaced.spaced_words {t : Text} (h : SingleSpaced t)
    (hhead : ∀ c ∈ t.head?, isGap c = false) (hlast : ∀ c ∈ t.getLast?, isGap c = false) :
    spaced (words t) = t := by
  induction t using gap_induction with
  | last p hp =>
    by_cases hne : p = []
    · rw [hne]
      rfl
    · rw [words_of_unbroken hp hne, spaced_cons, List.flatMap_nil, List.append_nil]
  | gap p c t hp hc ih =>
    obtain rfl : c = ' ' := by
      have hfeed : c ≠ '\n' := fun hfeed => h.1 (by simp [hfeed])
      simpa [isGap, hfeed] using hc
    have hne : p ≠ [] := by
      rintro rfl
      exact Bool.false_ne_true ((hhead ' ' rfl).symm.trans hc)
    have htne : t ≠ [] := by
      rintro rfl
      exact Bool.false_ne_true ((hlast ' ' (by simp)).symm.trans hc)
    have hrest : SingleSpaced (' ' :: t) := h.of_isInfix (List.suffix_append p _).isInfix
    have htail : spaced (words t) = t := by
      refine ih (hrest.of_isInfix (List.suffix_cons ' ' t).isInfix) ?_ ?_
      · exact fun d hd => (List.isChain_cons.1 hrest.2).1 d hd hc
      · intro d hd
        apply hlast
        rw [List.getLast?_append, List.getLast?_cons_of_ne_nil htne]
        exact Option.mem_def.2 (by rw [Option.mem_def.1 hd]; rfl)
    have hwords : words t ≠ [] := by
      intro hnil
      rw [hnil] at htail
      exact htne htail.symm
    rw [words_append_gap hc, words_of_unbroken hp hne, List.singleton_append,
      spaced_cons_of_ne_nil hwords, htail]

end SingleSpaced

/-- Every blank of the text is a space or a line feed. -/
def BlanksAreGaps (t : Text) : Prop := ∀ c ∈ t, Text.isBlank c = true → isGap c = true

instance (t : Text) : Decidable (BlanksAreGaps t) :=
  decidable_of_iff (t.all fun c => !Text.isBlank c || isGap c) <| by
    simp [BlanksAreGaps, List.all_eq_true, imp_iff_not_or]

theorem words_trim {t : Text} (h : BlanksAreGaps t) : words (Text.trim t) = words t := by
  obtain ⟨lead, hlead, ht⟩ := Text.eq_append_trimStart t
  obtain ⟨tail, htail, hstart⟩ := Text.eq_trimEnd_append (Text.trimStart t)
  rw [hstart, ← Text.trim] at ht
  have hrun {w : Text} (hblank : Text.allBlank w = true) (hsub : w ⊆ t) : IsRun w := fun c hc =>
    h c (hsub hc) (List.all_eq_true.1 hblank c hc)
  have hlead' : IsRun lead := hrun hlead (ht ▸ List.subset_append_left _ _)
  have htail' : IsRun tail := hrun htail (ht ▸ by simp)
  conv => rhs; rw [ht]
  rw [words_run_append hlead', words_append_run_end htail']

theorem words_normalize {t : Text} (h : BlanksAreGaps t) : words (normalize t) = words t := by
  have hspaced : BlanksAreGaps (spaced (words t)) := by
    intro c hc hblank
    cases hws : words t with
    | nil => simp [hws, spaced] at hc
    | cons p ws =>
      rw [hws, spaced_cons, List.mem_append, List.mem_flatMap] at hc
      have hmem : c = ' ' ∨ ∃ q ∈ words t, c ∈ q := by
        rw [hws]
        rcases hc with hc | ⟨q, hq, hc⟩
        · exact Or.inr ⟨p, by simp, hc⟩
        · rcases List.mem_cons.1 hc with hc | hc
          · exact Or.inl hc
          · exact Or.inr ⟨q, by simp [hq], hc⟩
      rcases hmem with rfl | ⟨q, hq, hc⟩
      · rfl
      · exact h c ((of_mem_words hq).2.2 hc) hblank
  rw [normalize_eq_trim_spaced, words_trim hspaced]
  exact words_spaced fun p hp => ⟨(of_mem_words hp).1, (of_mem_words hp).2.1⟩

theorem normalize_normalize (t : Text) : normalize (normalize t) = normalize t := by
  have htrimmed : Text.Trimmed (normalize t) := Text.trimmed_trim _
  have hsingle : SingleSpaced (normalize t) :=
    (singleSpaced_squeeze false _).of_isInfix (Text.isInfix_trim _)
  have hgap {c : Char} (hc : Text.isBlank c = false) : isGap c = false := by
    by_contra h
    rw [Bool.not_eq_false] at h
    exact Bool.false_ne_true (hc.symm.trans (isBlank_of_isGap h))
  rw [normalize_eq_trim_spaced (normalize t),
    hsingle.spaced_words (fun c hc => hgap (htrimmed c (Or.inl hc)))
      (fun c hc => hgap (htrimmed c (Or.inr hc))), htrimmed.trim_eq]

/-- What it means for a function on texts to even out gaps. -/
structure EvensGaps (f : Text → Text) : Prop where
  eq_words : ∀ t, f t = Text.trim ([' '].intercalate (words t))
  idempotent : ∀ t, f (f t) = f t
  inside : ∀ a b w w', IsRun w → IsRun w' → w ≠ [] → w' ≠ [] → f (a ++ w ++ b) = f (a ++ w' ++ b)
  outside : ∀ a w, IsRun w → f (w ++ a) = f a ∧ f (a ++ w) = f a

theorem evensGaps_normalize : EvensGaps normalize where
  eq_words := normalize_eq_trim_spaced
  idempotent := normalize_normalize
  inside a b w w' hw hw' hne hne' := by
    rw [normalize_eq_trim_spaced, words_append_run hw hne, ← words_append_run hw' hne',
      ← normalize_eq_trim_spaced]
  outside a w hw := by
    constructor
    · rw [normalize_eq_trim_spaced, words_run_append hw, ← normalize_eq_trim_spaced]
    · rw [normalize_eq_trim_spaced, words_append_run_end hw, ← normalize_eq_trim_spaced]

/-- Tabs are no gaps, but go with the gaps at the ends. -/
example : normalize "\t \n f\t(x)\n\n: T \t\n".toList = "f\t(x) : T".toList := by decide +kernel

/-- Texts are compared by their words: gaps are evened out, and where they are the only blanks, a
caret is met exactly if both texts have the same words in the same order. -/
theorem normalize_reads_words :
    EvensGaps normalize ∧ ∀ actual expected : Text, BlanksAreGaps actual →
      BlanksAreGaps expected →
        (meets .caret actual expected = true ↔ words actual = words expected) := by
  refine ⟨evensGaps_normalize, fun actual expected ha he => ?_⟩
  rw [meets, beq_iff_eq]
  constructor
  · intro h
    rw [← words_normalize ha, h, words_normalize he]
  · intro h
    rw [normalize_eq_trim_spaced, h, ← normalize_eq_trim_spaced]

def brokenType : Text := "Map<\n    string,\n    X |  Y[]\n>\n".toList

def inlineType : Text := " Map< string, X | Y[] >".toList

theorem brokenType_meets_inlineType :
    BlanksAreGaps brokenType ∧ BlanksAreGaps inlineType ∧ (words brokenType).length = 6 ∧
      meets .caret brokenType inlineType = true := by
  have hbroken : BlanksAreGaps brokenType := by decide +kernel
  have hinline : BlanksAreGaps inlineType := by decide +kernel
  have hwords : words brokenType = words inlineType := by decide +kernel
  exact ⟨hbroken, hinline, by decide +kernel,
    (normalize_reads_words.2 brokenType inlineType hbroken hinline).2 hwords⟩

end TypeText
end TypeComments
