import Mathlib.Algebra.Ring.Int.Defs
import TypeComments.Proofs.CaretRewrite
import TypeComments.Proofs.Edit

/-! Replacing expected texts and reading them back. Any carets whose expected texts stand apart can
be given new texts at once, and the assertions of the new source are those texts, on the lines to
which the replacements above them have moved them. -/

namespace TypeComments

open CaretAssertion

variable (r : CaretAssertion → Text)

/-- By how many lines the source grows when the expected texts of `carets` are replaced. -/
def lineShift (carets : List CaretAssertion) : Int :=
  (carets.map fun c => ((r c).count '\n' : Int) - c.expected.count '\n').sum

def Apart (carets : List CaretAssertion) : Prop :=
  carets.Pairwise fun c c' => c.range.stop < c'.range.start

theorem start_le_stop_of_hasCaret {source : Text} {c : CaretAssertion} (h : HasCaret source c) :
    c.range.start ≤ c.range.stop := by
  obtain ⟨b, -, hb⟩ := h
  rw [hb.range, CaretBlock.upToEnd]
  simp

/-- The replacements, made from the last to the first. A caret below all of them goes along. -/
theorem applyAll_replacements {carets : List CaretAssertion} {source : Text}
    (hcarets : ∀ c ∈ carets, HasCaret source c) (hr : ∀ c ∈ carets, '\r' ∉ r c)
    (hapart : Apart carets) :
    ∃ fixed,
      ChangeSet.applyAll (carets.map fun c => c.replacement (r c)).reverse source = .ok fixed ∧
      (∀ front c back, carets = front ++ c :: back → ∃ c', HasCaret fixed c' ∧
        { c with expected := r c, needsSpace := false }.MovedTo c' (lineShift r front)) ∧
      ∀ d, HasCaret source d → (∀ c ∈ carets, c.range.stop < d.range.start) →
        ∃ d', HasCaret fixed d' ∧ d.MovedTo d' (lineShift r carets) := by
  induction carets using List.reverseRecOn generalizing source with
  | nil =>
    refine ⟨source, rfl, by simp, fun d hd _ => ⟨d, hd, ?_, rfl, rfl, rfl⟩⟩
    simp [lineShift]
  | append_singleton carets last ih =>
    obtain ⟨hapart, -, hlast⟩ := List.pairwise_append.1 hapart
    have hstop (c : CaretAssertion) (hc : c ∈ carets) : c.range.stop < last.range.start :=
      hlast c hc last (by simp)
    obtain ⟨source', happly, ⟨last', hlast', hstart, hmoved⟩, hbefore, hafter⟩ :=
      (hcarets last (by simp)).replace (hr last (by simp))
    obtain ⟨fixed, hfixed, hmem, hbelow⟩ := ih
      (fun c hc => hbefore c (hcarets c (by simp [hc])) (hstop c hc))
      (fun c hc => hr c (by simp [hc])) hapart
    refine ⟨fixed, ?_, ?_, ?_⟩
    · rw [List.map_append, List.map_singleton, List.reverse_append, List.reverse_singleton,
        List.singleton_append, ChangeSet.applyAll, happly]
      exact hfixed
    · intro front c back hsplit
      cases back using List.reverseRecOn with
      | nil =>
        obtain ⟨rfl, hc⟩ := List.append_inj' hsplit rfl
        obtain rfl := List.singleton_inj.1 hc
        obtain ⟨c', hc', hmoved'⟩ := hbelow last' hlast'
          fun c hc => Nat.lt_of_lt_of_le (hstop c hc) hstart
        refine ⟨c', hc', ?_⟩
        simpa using hmoved.trans hmoved'
      | append_singleton back c₀ =>
        rw [← List.cons_append, ← List.append_assoc] at hsplit
        obtain ⟨hsplit, -⟩ := List.append_inj' hsplit rfl
        exact hmem front c back hsplit
    · intro d hd hbelow_d
      obtain ⟨d₁, hd₁, hstart₁, hmoved₁⟩ := hafter d hd (hbelow_d last (by simp))
      obtain ⟨d', hd', hmoved'⟩ := hbelow d₁ hd₁
        fun c hc => Nat.lt_of_lt_of_le (hstop c hc) hstart₁
      refine ⟨d', hd', ?_⟩
      have hshift : lineShift r (carets ++ [last]) =
          lineShift r carets + ((r last).count '\n' - last.expected.count '\n') := by
        simp [lineShift]
      rw [hshift]
      exact hmoved₁.trans hmoved'

theorem ascending_replacements {carets : List CaretAssertion} {source : Text}
    (hcarets : ∀ c ∈ carets, HasCaret source c) (hapart : Apart carets) :
    ChangeSet.Ascending (carets.map fun c => c.replacement (r c)) := by
  refine List.pairwise_map.2 (hapart.imp_of_mem ?_)
  intro c c' hc _ hlt
  exact Nat.lt_of_le_of_lt (start_le_stop_of_hasCaret (hcarets c hc)) hlt

/-- Carets below the first line whose expected texts stand apart can all be given new texts, and
are then read back with them. -/
theorem carets_ofSource_of_replacements {source : Text} {carets : List CaretAssertion}
    (hcarets : ∀ c ∈ carets, c ∈ (Assertions.ofSource source).carets)
    (hline : ∀ c ∈ carets, 0 < c.line) (hapart : Apart carets) (hr : ∀ c ∈ carets, '\r' ∉ r c)
    {edits : List TextEdit} (hedits : edits.Perm (carets.map fun c => c.replacement (r c))) :
    ∃ fixed, (ChangeSet.ofList edits).apply source = .ok fixed ∧
      ∀ front c back, carets = front ++ c :: back →
        ∃ c' ∈ (Assertions.ofSource fixed).carets,
          (c'.line : Int) = c.line + lineShift r front ∧ c'.expected = r c ∧
          c'.margin = c.margin ∧ c'.needsSpace = false := by
  have hhas : ∀ c ∈ carets, HasCaret source c := fun c hc =>
    hasCaret_of_mem (hcarets c hc) (hline c hc)
  obtain ⟨fixed, happly, hmem, -⟩ := applyAll_replacements r hhas hr hapart
  refine ⟨fixed, ?_, ?_⟩
  · have hascending := (ascending_replacements r hhas hapart).filter (!·.isNoop)
    have hstops : (carets.map fun c => c.replacement (r c)).Pairwise
        fun a b => a.span.stop ≤ b.span.start :=
      List.pairwise_map.2 (hapart.imp Nat.le_of_lt)
    refine (ChangeSet.apply_ofList_eq_ok_iff (hedits.filter _) hascending).2 ⟨hstops.filter _, ?_⟩
    rw [← List.filter_reverse]
    exact ChangeSet.applyAll_filter happly
  · intro front c back hsplit
    obtain ⟨c₁, hc₁, hmoved⟩ := hmem front c back hsplit
    obtain ⟨c', hc', hl, he, -, hm, hn⟩ := mem_carets_of_hasCaret hc₁
    exact ⟨c', hc', hl ▸ hmoved.line, he.trans hmoved.expected, hm.trans hmoved.margin,
      hn.trans hmoved.needsSpace⟩

def twoCarets : Text := "let a = b;\n//  ^? A\r\n//     B\r\nlet c = d;\n//  ^?".toList

def twoTexts (c : CaretAssertion) : Text := if c.needsSpace then "C\n".toList else []

theorem twoCarets_read_back :
    (Assertions.ofSource twoCarets).carets.map CaretAssertion.line = [1, 4] ∧
    ∃ fixed, (ChangeSet.ofList ((Assertions.ofSource twoCarets).carets.map fun c =>
        c.replacement (twoTexts c)).reverse).apply twoCarets = .ok fixed ∧
      ∀ front c back, (Assertions.ofSource twoCarets).carets = front ++ c :: back →
        ∃ c' ∈ (Assertions.ofSource fixed).carets,
          (c'.line : Int) = c.line + lineShift twoTexts front ∧ c'.expected = twoTexts c ∧
          c'.margin = c.margin ∧ c'.needsSpace = false := by
  have hline : ∀ c ∈ (Assertions.ofSource twoCarets).carets, 0 < c.line := by decide +kernel
  have hapart : Apart (Assertions.ofSource twoCarets).carets := by
    unfold Apart
    decide +kernel
  have hr : ∀ c ∈ (Assertions.ofSource twoCarets).carets, '\r' ∉ twoTexts c := by decide +kernel
  exact ⟨by decide +kernel, carets_ofSource_of_replacements twoTexts (fun _ hc => hc) hline hapart hr
    (List.reverse_perm _)⟩

end TypeComments
