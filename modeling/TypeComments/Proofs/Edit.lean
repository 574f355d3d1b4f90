import Mathlib.Data.List.Induction
import Mathlib.Data.List.Nodup
import TypeComments.Edit
import TypeComments.Proofs.Lines

/-! Change sets whose edits start at different offsets. Sorting edits with different spans leaves no
choice, so that a change set made from them, added in any order, applies them from the last to the
first. If they fit the source and do not overlap, each fits the text on which it is made. -/

namespace TypeComments

theorem filter_mergeSort {α : Type} {le : α → α → Bool}
    (trans : ∀ a b c, le a b = true → le b c = true → le a c = true)
    (total : ∀ a b, (le a b || le b a) = true) {p : α → Bool}
    (htied : ∀ a b, p a = true → p b = true → le a b = true) (l : List α) :
    (l.mergeSort le).filter p = l.filter p := by
  have hpairs : (l.filter p).Pairwise fun a b => le a b = true :=
    List.pairwise_of_forall_mem_list fun a ha b hb =>
      htied a b (List.of_mem_filter ha) (List.of_mem_filter hb)
  have hsub := (List.sublist_mergeSort trans total hpairs List.filter_sublist).filter p
  simp only [List.filter_filter, Bool.and_self] at hsub
  have hlength := ((List.mergeSort_perm l le).filter p).length_eq
  exact (hsub.eq_of_length hlength.symm).symm

namespace TextEdit

theorem eq_of_applyTo?_noop {e : TextEdit} {t t' : Text} (he : e.isNoop = true)
    (h : e.applyTo? t = some t') : t' = t := by
  rw [isNoop, Bool.and_eq_true, Span.isEmpty_iff, List.isEmpty_iff] at he
  obtain ⟨hspan, htext⟩ := he
  simp only [applyTo?, hspan, htext, Nat.max_self] at h
  obtain ⟨⟨front, back⟩, hcut, hrest⟩ := Option.bind_eq_some_iff.1 h
  obtain ⟨ht, -⟩ := Text.eq_append_of_cut? hcut
  rw [hcut, Option.map_some] at hrest
  simpa [ht, eq_comm] using hrest

theorem applyTo?_of_span {e : TextEdit} {a m : Text}
    (h : e.span = ⟨Text.size a, Text.size a + Text.size m⟩) (b : Text) :
    e.applyTo? (a ++ m ++ b) = some (a ++ e.text ++ b) := by
  have hedit : e = ⟨⟨Text.size a, Text.size a + Text.size m⟩, e.text⟩ := by rw [← h]
  conv => lhs; rw [hedit]
  exact applyTo?_middle a m b e.text

theorem start_le_of_le {a b : TextEdit} (h : a.le b = true) : a.span.start ≤ b.span.start := by
  rw [le_iff] at h
  omega

theorem span_eq_of_le {a b : TextEdit} (hab : a.le b = true) (hba : b.le a = true) :
    a.span = b.span := by
  rw [le_iff] at hab hba
  have hstart : a.span.start = b.span.start := by omega
  have hstop : a.span.stop = b.span.stop := by omega
  rw [show a.span = ⟨a.span.start, a.span.stop⟩ from rfl, hstart, hstop]

/-- The span starts and ends at boundaries of the text, in this order. -/
structure FitsIn (e : TextEdit) (t : Text) : Prop where
  ordered : e.span.start ≤ e.span.stop
  inside : e.span.stop ≤ Text.size t
  start_boundary : (Text.cut? t e.span.start).isSome = true
  stop_boundary : (Text.cut? t e.span.stop).isSome = true

instance (e : TextEdit) (t : Text) : Decidable (e.FitsIn t) :=
  decidable_of_iff (e.span.start ≤ e.span.stop ∧ e.span.stop ≤ Text.size t ∧
      (Text.cut? t e.span.start).isSome = true ∧ (Text.cut? t e.span.stop).isSome = true)
    ⟨fun h => ⟨h.1, h.2.1, h.2.2.1, h.2.2.2⟩,
      fun h => ⟨h.ordered, h.inside, h.start_boundary, h.stop_boundary⟩⟩

theorem fitsIn_iff {e : TextEdit} {t : Text} :
    e.FitsIn t ↔ ∃ a m, a ++ m <+: t ∧ e.span = ⟨Text.size a, Text.size a + Text.size m⟩ := by
  constructor
  · intro h
    obtain ⟨⟨a, r⟩, hstart⟩ := Option.isSome_iff_exists.1 h.start_boundary
    obtain ⟨⟨p, q⟩, hstop⟩ := Option.isSome_iff_exists.1 h.stop_boundary
    obtain ⟨ha, hsizea⟩ := Text.cut?_eq_some_iff.1 hstart
    obtain ⟨hp, hsizep⟩ := Text.cut?_eq_some_iff.1 hstop
    have hpt : p <+: t := ⟨q, hp.symm⟩
    obtain ⟨m, rfl⟩ : a <+: p :=
      Text.prefix_of_size_le ⟨r, ha.symm⟩ hpt (by rw [hsizea, hsizep]; exact h.ordered)
    refine ⟨a, m, hpt, ?_⟩
    rw [← Text.size_append, hsizea, hsizep]
  · rintro ⟨a, m, ⟨b, rfl⟩, hspan⟩
    have hstart := Text.cut?_size_append a (m ++ b)
    have hstop := Text.cut?_size_append (a ++ m) b
    rw [← List.append_assoc] at hstart
    rw [Text.size_append] at hstop
    constructor
    · simp [hspan]
    · simp [hspan]
    · rw [hspan, hstart, Option.isSome_some]
    · rw [hspan, hstop, Option.isSome_some]

theorem FitsIn.exists_applyTo? {e : TextEdit} {t : Text} (h : e.FitsIn t) :
    ∃ t', e.applyTo? t = some t' := by
  obtain ⟨a, m, ⟨b, rfl⟩, hspan⟩ := fitsIn_iff.1 h
  exact ⟨_, applyTo?_of_span hspan b⟩

end TextEdit

namespace ChangeSet

theorem applyAll_cons {e : TextEdit} {t t' : Text} (h : e.applyTo? t = some t')
    (es : List TextEdit) : applyAll (e :: es) t = applyAll es t' := by
  rw [applyAll, h]

theorem exists_of_applyAll_cons {e : TextEdit} {es : List TextEdit} {t u : Text}
    (h : applyAll (e :: es) t = .ok u) : ∃ t', e.applyTo? t = some t' ∧ applyAll es t' = .ok u := by
  rw [applyAll] at h
  cases happly : e.applyTo? t with
  | none =>
    rw [happly] at h
    cases h
  | some t' =>
    rw [happly] at h
    exact ⟨t', rfl, h⟩

theorem applyAll_filter {es : List TextEdit} {t t' : Text} (h : applyAll es t = .ok t') :
    applyAll (es.filter (!·.isNoop)) t = .ok t' := by
  induction es generalizing t with
  | nil => exact h
  | cons e es ih =>
    obtain ⟨u, happly, hrest⟩ := exists_of_applyAll_cons h
    cases hnoop : e.isNoop with
    | true =>
      obtain rfl := TextEdit.eq_of_applyTo?_noop hnoop happly
      rw [List.filter_cons_of_neg (by simp [hnoop])]
      exact ih hrest
    | false =>
      rw [List.filter_cons_of_pos (by simp [hnoop]), applyAll_cons happly]
      exact ih hrest

def Ascending (es : List TextEdit) : Prop := es.Pairwise fun a b => a.span.start < b.span.start

theorem Ascending.le {es : List TextEdit} (h : Ascending es) :
    es.Pairwise fun a b => a.le b = true :=
  h.imp fun hab => TextEdit.le_iff.2 (Or.inl hab)

theorem Ascending.nodup_spans {es : List TextEdit} (h : Ascending es) :
    (es.map TextEdit.span).Nodup :=
  List.pairwise_map.2 (h.imp fun hlt heq => Nat.ne_of_lt hlt (congrArg Span.start heq))

theorem eq_of_sorted {es fs : List TextEdit} (hperm : es.Perm fs)
    (hes : es.Pairwise fun a b => a.le b = true) (hfs : fs.Pairwise fun a b => a.le b = true)
    (hspans : (fs.map TextEdit.span).Nodup) : es = fs := by
  refine List.Perm.eq_of_pairwise ?_ hes hfs hperm
  intro a b ha hb hab hba
  exact List.inj_on_of_nodup_map hspans (hperm.mem_iff.1 ha) hb (TextEdit.span_eq_of_le hab hba)

theorem descending_perm (c : ChangeSet) : c.descending.Perm c.edits := List.mergeSort_perm _ _

theorem descending_pairwise (c : ChangeSet) : c.descending.Pairwise fun a b => b.le a = true :=
  List.pairwise_mergeSort (fun a b d hab hbd => TextEdit.le_trans d b a hbd hab)
    (fun a b => TextEdit.le_total b a) c.edits

section Sorted

variable {c : ChangeSet} {fs : List TextEdit} (hperm : c.edits.Perm fs)
  (hle : fs.Pairwise fun a b => a.le b = true) (hspans : (fs.map TextEdit.span).Nodup)
include hperm hle hspans

theorem mergeSort_edits : c.edits.mergeSort TextEdit.le = fs :=
  eq_of_sorted ((List.mergeSort_perm _ _).trans hperm)
    (List.pairwise_mergeSort TextEdit.le_trans TextEdit.le_total _) hle hspans

theorem descending_eq_reverse : c.descending = fs.reverse := by
  have hreverse : c.descending.reverse = fs :=
    eq_of_sorted ((List.reverse_perm _).trans (c.descending_perm.trans hperm))
      (List.pairwise_reverse.2 c.descending_pairwise) hle hspans
  rw [← hreverse, List.reverse_reverse]

end Sorted

/-- Neighbours that do not overlap leave no overlap at all. -/
theorem firstOverlap?_eq_none_iff {es : List TextEdit}
    (h : es.Pairwise fun a b => a.span.start ≤ b.span.start) :
    firstOverlap? es = none ↔ es.Pairwise fun a b => a.span.stop ≤ b.span.start := by
  induction es with
  | nil => simp [firstOverlap?]
  | cons a es ih =>
    obtain ⟨hstart, htail⟩ := List.pairwise_cons.1 h
    cases es with
    | nil => simp [firstOverlap?]
    | cons b es =>
      rw [firstOverlap?, List.pairwise_cons, ← ih htail]
      split
      · rename_i hlt
        simp [Nat.not_le_of_lt hlt]
      · rename_i hle
        have hb := (List.pairwise_cons.1 htail).1
        have hall : ∀ c ∈ b :: es, a.span.stop ≤ c.span.start := by
          intro c hc
          rcases List.mem_cons.1 hc with rfl | hc
          · omega
          · have := hb c hc
            omega
        exact ⟨fun h => ⟨hall, h⟩, And.right⟩

section OfList

variable {es fs : List TextEdit} (hperm : (es.filter (!·.isNoop)).Perm fs) (h : Ascending fs)
include hperm h

theorem conflict?_ofList_eq_none_iff :
    (ofList es).conflict? = none ↔ fs.Pairwise fun a b => a.span.stop ≤ b.span.start := by
  rw [conflict?, mergeSort_edits (by rwa [edits_ofList]) h.le h.nodup_spans,
    firstOverlap?_eq_none_iff (h.imp Nat.le_of_lt)]

theorem descending_ofList : (ofList es).descending = fs.reverse :=
  descending_eq_reverse (by rwa [edits_ofList]) h.le h.nodup_spans

/-- A change set of edits that start at different offsets is applied if no two of them overlap, and
then from the last edit to the first. -/
theorem apply_ofList_eq_ok_iff {source fixed : Text} :
    (ofList es).apply source = .ok fixed ↔
      (fs.Pairwise fun a b => a.span.stop ≤ b.span.start) ∧
        applyAll fs.reverse source = .ok fixed := by
  rw [apply, descending_ofList hperm h, ← conflict?_ofList_eq_none_iff hperm h]
  split
  · rename_i conflict hconflict
    simp [hconflict]
  · rename_i hnone
    simp [hnone]

end OfList

end ChangeSet

/-- The edit replaces a part of `source` by a text to which the whole is related by `R`, whatever
comes after that part. -/
def TextEdit.Respects (R : Text → Text → Prop) (source : Text) (e : TextEdit) : Prop :=
  ∃ a m, a ++ m <+: source ∧ e.span = ⟨Text.size a, Text.size a + Text.size m⟩ ∧
    ∀ b, R (a ++ m ++ b) (a ++ e.text ++ b)

namespace ChangeSet

/-- Edits are made from the last to the first, and `S` is what their relations come to together. Up
to the end of the next edit the text is the source all the time. -/
theorem applyAll_relates {ι : Type} {f : ι → TextEdit} {R : ι → Text → Text → Prop}
    {S : List ι → Text → Text → Prop} (hnil : ∀ t, S [] t t)
    (hconcat : ∀ {xs x t u v}, R x t u → S xs u v → S (xs ++ [x]) t v) {xs : List ι}
    {source t fixed : Text} (hxs : ∀ x ∈ xs, (f x).Respects (R x) source)
    (hapart : xs.Pairwise fun x y => (f x).span.stop ≤ (f y).span.start)
    (hshared : ∀ x ∈ xs, ∃ p, Text.size p = (f x).span.stop ∧ p <+: source ∧ p <+: t)
    (h : applyAll (xs.map f).reverse t = .ok fixed) : S xs t fixed := by
  induction xs using List.reverseRecOn generalizing t with
  | nil =>
    cases h
    exact hnil _
  | append_singleton xs x ih =>
    obtain ⟨hapart, -, hlast⟩ := List.pairwise_append.1 hapart
    obtain ⟨a, m, hsource, hspan, hR⟩ := hxs x (by simp)
    obtain ⟨p, hp, hps, ⟨b, rfl⟩⟩ := hshared x (by simp)
    have hsize : Text.size p = Text.size (a ++ m) := by rw [hp, hspan, Text.size_append]
    obtain rfl : p = a ++ m := Text.eq_of_size_eq hps hsource hsize
    rw [List.map_append, List.reverse_append, List.map_singleton, List.reverse_singleton,
      List.singleton_append, applyAll_cons (TextEdit.applyTo?_of_span hspan b)] at h
    refine hconcat (hR b) (ih (fun y hy => hxs y (by simp [hy])) hapart ?_ h)
    intro y hy
    obtain ⟨p', hp', hps', -⟩ := hshared y (by simp [hy])
    refine ⟨p', hp', hps', ?_⟩
    have hle : Text.size p' ≤ Text.size a := by
      have hstop := hlast y hy x (by simp)
      rw [hspan] at hstop
      rw [hp']
      exact hstop
    have hp'a : p' <+: a :=
      Text.prefix_of_size_le hps' ((List.prefix_append a m).trans hsource) hle
    exact hp'a.trans ⟨(f x).text ++ b, by rw [List.append_assoc]⟩

theorem applyAll_relates_source {ι : Type} {f : ι → TextEdit} {R : ι → Text → Text → Prop}
    {S : List ι → Text → Text → Prop} (hnil : ∀ t, S [] t t)
    (hconcat : ∀ {xs x t u v}, R x t u → S xs u v → S (xs ++ [x]) t v) {xs : List ι}
    {source fixed : Text} (hxs : ∀ x ∈ xs, (f x).Respects (R x) source)
    (hapart : xs.Pairwise fun x y => (f x).span.stop ≤ (f y).span.start)
    (h : applyAll (xs.map f).reverse source = .ok fixed) : S xs source fixed := by
  refine applyAll_relates hnil hconcat hxs hapart ?_ h
  intro x hx
  obtain ⟨a, m, hsource, hspan, -⟩ := hxs x hx
  exact ⟨a ++ m, by rw [hspan, Text.size_append], hsource, hsource⟩

theorem applyAll_respects_source {R : Text → Text → Prop} (hrefl : ∀ t, R t t)
    (htrans : ∀ {t u v}, R t u → R u v → R t v) {es : List TextEdit} {source fixed : Text}
    (hes : ∀ e ∈ es, e.Respects R source)
    (hapart : es.Pairwise fun a b => a.span.stop ≤ b.span.start)
    (h : applyAll es.reverse source = .ok fixed) : R source fixed :=
  applyAll_relates_source (f := id) (R := fun _ => R) (S := fun _ => R) hrefl htrans hes hapart
    (by rwa [List.map_id])

section Fits

variable {es : List TextEdit} {source : Text} (hes : ∀ e ∈ es, e.FitsIn source)
  (hapart : es.Pairwise fun a b => a.span.stop ≤ b.span.start)
include hes hapart

theorem prefix_of_applyAll {p t : Text} (hp : p <+: source)
    (hbefore : ∀ e ∈ es, Text.size p ≤ e.span.start) (h : applyAll es.reverse source = .ok t) :
    p <+: t := by
  refine applyAll_respects_source (R := fun t u => p <+: t → p <+: u) (fun _ => id)
    (fun htu huv => huv ∘ htu) ?_ hapart h hp
  intro e he
  obtain ⟨a, m, hsource, hspan⟩ := TextEdit.fitsIn_iff.1 (hes e he)
  have hle : Text.size p ≤ Text.size a := by
    have hstart := hbefore e he
    rwa [hspan] at hstart
  have hpa : p <+: a := Text.prefix_of_size_le hp ((List.prefix_append a m).trans hsource) hle
  exact ⟨a, m, hsource, hspan, fun b _ => hpa.trans ⟨e.text ++ b, by rw [List.append_assoc]⟩⟩

/-- Edits that fit the source and do not overlap also fit when their turn comes: the edits before
have changed nothing up to the end of the next one. -/
theorem fitsIn_of_applyAll {front back : List TextEdit} {e : TextEdit} {t : Text}
    (hsplit : es.reverse = front ++ e :: back) (h : applyAll front source = .ok t) :
    e.FitsIn t := by
  obtain rfl : es = back.reverse ++ e :: front.reverse := by
    simpa using congrArg List.reverse hsplit
  obtain ⟨-, hlater, -⟩ := List.pairwise_append.1 hapart
  obtain ⟨hafter, hapart⟩ := List.pairwise_cons.1 hlater
  obtain ⟨a, m, hsource, hspan⟩ := TextEdit.fitsIn_iff.1 (hes e (by simp))
  have hstop : Text.size (a ++ m) = e.span.stop := by rw [hspan, Text.size_append]
  rw [← List.reverse_reverse front] at h
  have hshared := prefix_of_applyAll (fun e' he' => hes e' (by simp [List.mem_reverse.1 he']))
    hapart hsource (fun e' he' => hstop ▸ hafter e' he') h
  exact TextEdit.fitsIn_iff.2 ⟨a, m, hshared, hspan⟩

end Fits

theorem exists_applyAll {es : List TextEdit} {source : Text}
    (h : ∀ front e back t, es = front ++ e :: back → applyAll front source = .ok t →
      e.FitsIn t) : ∃ fixed, applyAll es source = .ok fixed := by
  induction es generalizing source with
  | nil => exact ⟨source, rfl⟩
  | cons e es ih =>
    obtain ⟨t, ht⟩ := (h [] e es source rfl rfl).exists_applyTo?
    obtain ⟨fixed, hfixed⟩ : ∃ fixed, applyAll es t = .ok fixed := by
      refine ih fun front e' back t' hsplit hfront => h (e :: front) e' back t' ?_ ?_
      · rw [hsplit, List.cons_append]
      · rwa [applyAll_cons ht]
    exact ⟨fixed, by rwa [applyAll_cons ht]⟩

section OfList

variable {es fs : List TextEdit} (hperm : (es.filter (!·.isNoop)).Perm fs) (h : Ascending fs)
  {source : Text} (hfits : ∀ e ∈ fs, e.FitsIn source)
include hperm h hfits

theorem fitsIn_of_descending (hnone : (ofList es).conflict? = none) {front back : List TextEdit}
    {e : TextEdit} {t : Text} (hsplit : (ofList es).descending = front ++ e :: back)
    (hfront : applyAll front source = .ok t) : e.FitsIn t := by
  rw [descending_ofList hperm h] at hsplit
  exact fitsIn_of_applyAll hfits ((conflict?_ofList_eq_none_iff hperm h).1 hnone) hsplit hfront

theorem exists_apply_ofList (hnone : (ofList es).conflict? = none) :
    ∃ fixed, (ofList es).apply source = .ok fixed := by
  rw [apply, hnone]
  exact exists_applyAll fun _ _ _ _ => fitsIn_of_descending hperm h hfits hnone

theorem apply_ofList_ne_misaligned (e : TextEdit) :
    (ofList es).apply source ≠ .error (.misaligned e) := by
  cases hconflict : (ofList es).conflict? with
  | some c =>
    rw [apply, hconflict]
    simp
  | none =>
    obtain ⟨fixed, hfixed⟩ := exists_apply_ofList hperm h hfits hconflict
    rw [hfixed]
    simp

end OfList
end ChangeSet
end TypeComments
