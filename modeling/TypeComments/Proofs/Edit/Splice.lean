import Mathlib
import TypeComments.Proofs.Edit.Conflict

/-! Edits made at once. `splice?` goes through the source from left to right, keeps what lies
between one edit and the next, and puts each edit's text in the place of what its span covers. A
change set works from the last edit to the first and changes the text each time; up to the start of
the next edit, though, the text is still the source, so that the result is the same. -/

namespace TypeComments
namespace ChangeSet

/-- The source from the offset `n` on, with the edits made, for edits in ascending order that do not
overlap. -/
def splice? (source : Text) (n : Nat) : List TextEdit → Option Text
  | [] => Text.slice? source n (Text.size source)
  | e :: es =>
    (Text.slice? source n e.span.start).bind fun between =>
      (splice? source e.span.stop es).map fun rest => between ++ e.text ++ rest

/-- The edits of a list in the order in which they are spliced: those that change something, by
start and then by end, and of those with one span the one that was added last comes first. -/
structure SpliceOrder (es sorted : List TextEdit) : Prop where
  perm : sorted.Perm (es.filter (!·.isNoop))
  ascending : sorted.Pairwise fun a b => a.le b = true
  ties : ∀ s : Span, sorted.filter (·.span = s) =
    ((es.filter (!·.isNoop)).filter (·.span = s)).reverse

theorem filter_span_descending (c : ChangeSet) (s : Span) :
    c.descending.filter (·.span = s) = c.edits.filter (·.span = s) := by
  refine filter_mergeSort (fun a b d hab hbd => TextEdit.le_trans d b a hbd hab)
    (fun a b => TextEdit.le_total b a) ?_ c.edits
  intro a b ha hb
  rw [decide_eq_true_eq] at ha hb
  rw [TextEdit.le_iff, ha, hb]
  exact Or.inr ⟨rfl, Nat.le_refl _⟩

theorem spliceOrder_descending (es : List TextEdit) :
    SpliceOrder es (ofList es).descending.reverse where
  perm := by
    rw [← edits_ofList]
    exact (List.reverse_perm _).trans (descending_perm _)
  ascending := List.pairwise_reverse.2 (descending_pairwise _)
  ties s := by rw [List.filter_reverse, filter_span_descending, edits_ofList]

theorem eq_of_filter_span_eq {xs ys : List TextEdit} (hxs : xs.Pairwise fun a b => a.le b = true)
    (hys : ys.Pairwise fun a b => a.le b = true)
    (h : ∀ s : Span, xs.filter (·.span = s) = ys.filter (·.span = s)) : xs = ys := by
  induction xs generalizing ys with
  | nil =>
    refine (List.eq_nil_iff_forall_not_mem.2 fun y hy => ?_).symm
    simpa using List.filter_eq_nil_iff.1 (h y.span).symm y hy
  | cons x xs ih =>
    have hmem (e : TextEdit) : e ∈ x :: xs ↔ e ∈ ys := by
      simpa using congrArg (e ∈ ·) (h e.span)
    cases ys with
    | nil => simpa using (hmem x).1 (by simp)
    | cons y ys =>
      obtain ⟨hx, hxs'⟩ := List.pairwise_cons.1 hxs
      obtain ⟨hy, hys'⟩ := List.pairwise_cons.1 hys
      -- Both heads are the least edit, so that they have one span and are the first edits of it.
      have hspan : x.span = y.span := by
        rcases List.mem_cons.1 ((hmem x).1 (by simp)) with rfl | hxy
        · rfl
        · rcases List.mem_cons.1 ((hmem y).2 (by simp)) with rfl | hyx
          · rfl
          · exact TextEdit.span_eq_of_le (hx y hyx) (hy x hxy)
      obtain ⟨rfl, -⟩ : x = y ∧ _ := by simpa [hspan] using h x.span
      have htails (s : Span) : xs.filter (·.span = s) = ys.filter (·.span = s) := by
        have hs := h s
        rw [List.filter_cons, List.filter_cons] at hs
        split at hs
        · exact (List.cons.inj hs).2
        · exact hs
      rw [ih hxs' hys' htails]

theorem SpliceOrder.eq_descending {es sorted : List TextEdit} (h : SpliceOrder es sorted) :
    sorted = (ofList es).descending.reverse := by
  have hdescending := spliceOrder_descending es
  refine eq_of_filter_span_eq h.ascending hdescending.ascending fun s => ?_
  rw [h.ties, hdescending.ties]

theorem applyAll_append {xs : List TextEdit} {t u : Text} (h : applyAll xs t = .ok u)
    (ys : List TextEdit) : applyAll (xs ++ ys) t = applyAll ys u := by
  induction xs generalizing t with
  | nil =>
    cases h
    rfl
  | cons x xs ih =>
    obtain ⟨t', hx, hrest⟩ := exists_of_applyAll_cons h
    rw [List.cons_append, applyAll_cons hx, ih hrest]

/-- Edits that fit the source and follow one another, made from the last to the first, leave a part
`p` before all of them as it is and make what follows it the splice. -/
theorem applyAll_reverse_eq_splice {es : List TextEdit} {source : Text}
    (hfits : ∀ e ∈ es, e.FitsIn source)
    (hapart : es.Pairwise fun a b => a.span.stop ≤ b.span.start) {p : Text} (hp : p <+: source)
    (hbefore : ∀ e ∈ es, Text.size p ≤ e.span.start) :
    ∃ rest, splice? source (Text.size p) es = some rest ∧
      applyAll es.reverse source = .ok (p ++ rest) := by
  induction es generalizing p with
  | nil =>
    obtain ⟨rest, rfl⟩ := hp
    refine ⟨rest, ?_, rfl⟩
    exact Text.slice?_eq_some_iff.2 ⟨p, [], by simp, rfl, by simp⟩
  | cons e es ih =>
    obtain ⟨hafter, hapart⟩ := List.pairwise_cons.1 hapart
    obtain ⟨a, m, hsource, hspan⟩ := TextEdit.fitsIn_iff.1 (hfits e (by simp))
    have hstart : e.span.start = Text.size a := by rw [hspan]
    have hstop : e.span.stop = Text.size (a ++ m) := by rw [hspan, Text.size_append]
    obtain ⟨rest, hrest, happly⟩ := ih (fun e' he' => hfits e' (by simp [he'])) hapart hsource
      (fun e' he' => hstop ▸ hafter e' he')
    obtain ⟨between, rfl⟩ : p <+: a := by
      refine Text.prefix_of_size_le hp ((List.prefix_append a m).trans hsource) ?_
      rw [← hstart]
      exact hbefore e (by simp)
    have hbetween : Text.slice? source (Text.size p) e.span.start = some between := by
      obtain ⟨after, hafter⟩ := hsource
      refine Text.slice?_eq_some_iff.2 ⟨p, m ++ after, ?_, rfl, ?_⟩
      · rw [← hafter, List.append_assoc]
      · rw [hstart, Text.size_append]
    refine ⟨between ++ e.text ++ rest, ?_, ?_⟩
    · rw [splice?, hbetween, hstop, hrest]
      rfl
    · rw [List.reverse_cons, applyAll_append happly,
        applyAll_cons (TextEdit.applyTo?_of_span hspan rest)]
      simp [applyAll]

theorem applyAll_reverse_splice {es : List TextEdit} {source : Text}
    (hfits : ∀ e ∈ es, e.FitsIn source)
    (hapart : es.Pairwise fun a b => a.span.stop ≤ b.span.start) :
    ∃ fixed, splice? source 0 es = some fixed ∧ applyAll es.reverse source = .ok fixed := by
  simpa using applyAll_reverse_eq_splice hfits hapart (List.nil_prefix (l := source)) (by simp)

section Ordered

variable {es : List TextEdit} (hordered : ∀ e ∈ es, e.span.start ≤ e.span.stop)
  (hnone : (ofList es).conflict? = none)
include hordered hnone

theorem pairwise_apart_of_conflict?_eq_none :
    (es.filter (!·.isNoop)).Pairwise TextEdit.Apart := by
  rw [← edits_ofList]
  exact (conflict?_eq_none_iff fun e he => hordered e (mem_of_mem_ofList he)).1 hnone

theorem SpliceOrder.apart {sorted : List TextEdit} (h : SpliceOrder es sorted) :
    sorted.Pairwise fun a b => a.span.stop ≤ b.span.start := by
  have hapart := (h.perm.pairwise_iff TextEdit.Apart.symm).2
    (pairwise_apart_of_conflict?_eq_none hordered hnone)
  refine (pairwise_apart_iff h.ascending fun e he => ?_).1 hapart
  exact hordered e (List.mem_of_mem_filter (h.perm.mem_iff.1 he))

end Ordered

/-- A change set without a conflict, of edits that fit the source, makes all of them at once. There
is one order to splice them in, and only insertions can share a span. -/
theorem apply_eq_splice {source : Text} {es : List TextEdit} (hfits : ∀ e ∈ es, e.FitsIn source)
    (hnone : (ofList es).conflict? = none) :
    (∃ sorted fixed, SpliceOrder es sorted ∧ (∀ other, SpliceOrder es other → other = sorted) ∧
      splice? source 0 sorted = some fixed ∧ (ofList es).apply source = .ok fixed) ∧
    (es.filter (!·.isNoop)).Pairwise fun a b => a.span = b.span → a.span.isEmpty = true := by
  have hordered : ∀ e ∈ es, e.span.start ≤ e.span.stop := fun e he => (hfits e he).ordered
  constructor
  · have horder := spliceOrder_descending es
    have hfits' : ∀ e ∈ (ofList es).descending.reverse, e.FitsIn source :=
      fun e he => hfits e (List.mem_of_mem_filter (horder.perm.mem_iff.1 he))
    obtain ⟨fixed, hsplice, happly⟩ :=
      applyAll_reverse_splice hfits' (horder.apart hordered hnone)
    refine ⟨_, fixed, horder, fun _ => SpliceOrder.eq_descending, hsplice, ?_⟩
    rw [List.reverse_reverse] at happly
    rw [apply, hnone, happly]
  · apply (pairwise_apart_of_conflict?_eq_none hordered hnone).imp_of_mem
    intro a b ha _ hab hspan
    have hle := hordered a (List.mem_of_mem_filter ha)
    rw [TextEdit.Apart, ← hspan] at hab
    rw [Span.isEmpty_iff]
    omega

def callEdits : List TextEdit :=
  [.insert 2 "x".toList, ⟨⟨2, 4⟩, "ü".toList⟩, .insert 4 "z".toList, .insert 7 [],
    .insert 2 "y".toList, ⟨⟨6, 7⟩, []⟩]

theorem callEdits_spliced :
    (∀ e ∈ callEdits, e.FitsIn "f(é, b)".toList) ∧ (ofList callEdits).conflict? = none ∧
    (∃ sorted fixed, SpliceOrder callEdits sorted ∧
      (∀ other, SpliceOrder callEdits other → other = sorted) ∧
      splice? "f(é, b)".toList 0 sorted = some fixed ∧
      (ofList callEdits).apply "f(é, b)".toList = .ok fixed) ∧
    (ofList callEdits).apply "f(é, b)".toList = .ok "f(yxüz, )".toList := by
  have hfits : ∀ e ∈ callEdits, e.FitsIn "f(é, b)".toList := by decide
  have hnone : (ofList callEdits).conflict? = none :=
    (conflict?_eq_none_iff (by decide)).2 (by decide)
  exact ⟨hfits, hnone, (apply_eq_splice hfits hnone).1, by cbv⟩

end ChangeSet
end TypeComments
