import TypeComments.Proofs.Edit.Splice

/-! Edits past the end of the source. An offset past the end stands for the end of the text at the
moment the edit is made, and not for the end of the source. The two are the same as long as no text
was put in behind the source before, that is, if no edit that ends past the end comes before one
with a text. Where two edits end past the end, there are texts for which they are not. -/

namespace TypeComments

namespace TextEdit

/-- The edit with offsets past the end of a text moved back to it. -/
def clampTo (e : TextEdit) (t : Text) : TextEdit :=
  ⟨⟨min e.span.start (Text.size t), min e.span.stop (Text.size t)⟩, e.text⟩

theorem applyTo?_clampTo (e : TextEdit) (t : Text) : (e.clampTo t).applyTo? t = e.applyTo? t := by
  simp [applyTo?, clampTo]

theorem clampTo_of_le {e : TextEdit} {t : Text} (hle : e.span.start ≤ e.span.stop)
    (h : e.span.stop ≤ Text.size t) : e.clampTo t = e := by
  have hstart : min e.span.start (Text.size t) = e.span.start := by omega
  have hstop : min e.span.stop (Text.size t) = e.span.stop := by omega
  rw [clampTo, hstart, hstop]

theorem applyTo?_of_size_le {e : TextEdit} {t : Text} (h : Text.size t ≤ e.span.start) :
    e.applyTo? t = some (t ++ e.text) := by
  have hcut : Text.cut? t (Text.size t) = some (t, []) := by
    simpa using Text.cut?_size_append t []
  have hstart : min e.span.start (Text.size t) = Text.size t := by omega
  have hstop : max (min e.span.stop (Text.size t)) (Text.size t) = Text.size t := by omega
  simp only [applyTo?, hstart, hstop, hcut]
  simp

theorem exists_of_applyTo? {e : TextEdit} {t u : Text} (h : e.applyTo? t = some u) :
    ∃ front back, u = front ++ e.text ++ back ∧ back <:+ t ∧
      (Text.size t ≤ e.span.stop → back = []) := by
  obtain ⟨⟨front, _⟩, -, hrest⟩ := Option.bind_eq_some_iff.1 h
  obtain ⟨⟨before, back⟩, hback, rfl⟩ := Option.map_eq_some_iff.1 hrest
  obtain ⟨ht, hsize⟩ := Text.cut?_eq_some_iff.1 hback
  refine ⟨front, back, rfl, ⟨before, ht.symm⟩, fun hle => ?_⟩
  have hsizes : Text.size t = Text.size before + Text.size back := by rw [ht, Text.size_append]
  exact Text.size_eq_zero_iff.1 (by omega)

theorem getLast?_of_applyTo? {e : TextEdit} {t u : Text} {c : Char} (h : e.applyTo? t = some u)
    (hc : e.text.getLast? = some c)
    (ht : Text.size t ≤ e.span.stop ∨ t.getLast? = some c) : u.getLast? = some c := by
  obtain ⟨front, back, rfl, hsuffix, hall⟩ := exists_of_applyTo? h
  cases back with
  | nil => simp [hc]
  | cons d back =>
    obtain ⟨before, rfl⟩ := hsuffix
    rcases ht with hle | hlast
    · cases hall hle
    · rw [List.getLast?_append_of_ne_nil _ (List.cons_ne_nil d back)] at hlast ⊢
      exact hlast

end TextEdit

namespace ChangeSet

theorem getLast?_of_applyAll {es : List TextEdit} {t u : Text} {c : Char}
    (hes : ∀ e ∈ es, e.text.getLast? = some c) (ht : t.getLast? = some c)
    (h : applyAll es t = .ok u) : u.getLast? = some c := by
  induction es generalizing t with
  | nil =>
    cases h
    exact ht
  | cons e es ih =>
    obtain ⟨t', happly, hrest⟩ := exists_of_applyAll_cons h
    have ht' := TextEdit.getLast?_of_applyTo? happly (hes e (by simp)) (Or.inr ht)
    exact ih (fun e' he' => hes e' (by simp [he'])) ht' hrest

theorem exists_of_splice?_cons {source t : Text} {n : Nat} {e : TextEdit} {es : List TextEdit}
    (h : splice? source n (e :: es) = some t) :
    ∃ between rest, splice? source e.span.stop es = some rest ∧ t = between ++ e.text ++ rest := by
  obtain ⟨between, -, hmap⟩ := Option.bind_eq_some_iff.1 h
  obtain ⟨rest, hrest, rfl⟩ := Option.map_eq_some_iff.1 hmap
  exact ⟨between, rest, hrest, rfl⟩

theorem exists_of_splice?_concat {source t : Text} {n : Nat} {es : List TextEdit} {e : TextEdit}
    (h : splice? source n (es ++ [e]) = some t) (hstop : e.span.stop = Text.size source) :
    ∃ front, t = front ++ e.text := by
  induction es generalizing n t with
  | nil =>
    obtain ⟨between, rest, hrest, rfl⟩ := exists_of_splice?_cons h
    obtain ⟨_, _, -, -, hsize⟩ := Text.slice?_eq_some_iff.1 hrest
    obtain rfl : rest = [] := Text.size_eq_zero_iff.1 (by omega)
    exact ⟨between, by simp⟩
  | cons e' es ih =>
    obtain ⟨between, rest, hrest, rfl⟩ := exists_of_splice?_cons h
    obtain ⟨front, rfl⟩ := ih hrest
    exact ⟨between ++ e'.text ++ front, by simp⟩

/-- Edits in descending order do to a source what they do with their offsets moved back to its end,
if only edits without a text come before one that ends past it. -/
theorem applyAll_of_clampTo {es : List TextEdit} {source fixed : Text}
    (hordered : ∀ e ∈ es, e.span.start ≤ e.span.stop)
    (hapart : es.Pairwise fun a b => b.span.stop ≤ a.span.start)
    (hempty : es.Pairwise fun a b => Text.size source < b.span.stop → a.text = [])
    (h : applyAll (es.map (·.clampTo source)) source = .ok fixed) :
    applyAll es source = .ok fixed := by
  induction es with
  | nil => exact h
  | cons e es ih =>
    obtain ⟨hbelow, hapart⟩ := List.pairwise_cons.1 hapart
    obtain ⟨htext, hempty⟩ := List.pairwise_cons.1 hempty
    have hordered' : ∀ e' ∈ es, e'.span.start ≤ e'.span.stop :=
      fun e' he' => hordered e' (by simp [he'])
    obtain ⟨t, happly, hrest⟩ := exists_of_applyAll_cons h
    rw [TextEdit.applyTo?_clampTo] at happly
    rw [applyAll_cons happly]
    by_cases hpast : ∃ e' ∈ es, Text.size source < e'.span.stop
    · -- The edit stands past the end and puts nothing in.
      obtain ⟨e', he', hlt⟩ := hpast
      have hstart := hbelow e' he'
      rw [TextEdit.applyTo?_of_size_le (by omega), htext e' he' hlt, List.append_nil] at happly
      cases happly
      exact ih hordered' hapart hempty hrest
    · -- All edits that follow end within the source and stay as they are.
      have hmap : es.map (·.clampTo source) = es := by
        refine (List.map_congr_left fun e' he' => ?_).trans (List.map_id es)
        exact TextEdit.clampTo_of_le (hordered' e' he')
          (Nat.not_lt.1 fun hlt => hpast ⟨e', he', hlt⟩)
      rwa [hmap] at hrest

/-- Edits of different spans without a conflict whose offsets, moved back to the end of the source,
fit it. -/
structure Clampable (source : Text) (es : List TextEdit) : Prop where
  changes : ∀ e ∈ es, e.isNoop = false
  ordered : ∀ e ∈ es, e.span.start ≤ e.span.stop
  distinct : (es.map TextEdit.span).Nodup
  noConflict : (ofList es).conflict? = none
  fits : ∀ e ∈ es, (e.clampTo source).FitsIn source

/-- Applying the edits gives the splice of the edits in their order, with their offsets moved back
to the end of the source. -/
def Clamps (source : Text) (es : List TextEdit) : Prop :=
  ∃ sorted fixed, SpliceOrder es sorted ∧
    splice? source 0 (sorted.map (·.clampTo source)) = some fixed ∧
    (ofList es).apply source = .ok fixed

namespace Clampable

variable {source : Text} {es : List TextEdit} (h : Clampable source es)
include h

theorem filter_eq : es.filter (!·.isNoop) = es :=
  List.filter_eq_self.2 fun e he => by simp [h.changes e he]

theorem perm_descending : (ofList es).descending.Perm es := by
  have hperm := (ofList es).descending_perm
  rwa [edits_ofList, h.filter_eq] at hperm

theorem descending_apart :
    (ofList es).descending.Pairwise fun a b => b.span.stop ≤ a.span.start := by
  have hapart := (spliceOrder_descending es).apart h.ordered h.noConflict
  exact List.pairwise_reverse.1 hapart

theorem clamps (hempty : ∀ a ∈ es, ∀ b ∈ es, a ≠ b → a.le b = true →
    Text.size source < a.span.stop → b.text = []) : Clamps source es := by
  have hmem {e : TextEdit} (he : e ∈ (ofList es).descending) : e ∈ es :=
    h.perm_descending.mem_iff.1 he
  have horder := spliceOrder_descending es
  have hfits : ∀ e ∈ (ofList es).descending.reverse.map (·.clampTo source), e.FitsIn source := by
    simp only [List.mem_map, List.mem_reverse]
    rintro _ ⟨e, he, rfl⟩
    exact h.fits e (hmem he)
  have hapart : ((ofList es).descending.reverse.map (·.clampTo source)).Pairwise
      fun a b => a.span.stop ≤ b.span.start := by
    refine List.pairwise_map.2 ((horder.apart h.ordered h.noConflict).imp fun hab => ?_)
    simp only [TextEdit.clampTo]
    omega
  obtain ⟨fixed, hsplice, hclamped⟩ := applyAll_reverse_splice hfits hapart
  rw [List.map_reverse, List.reverse_reverse] at hclamped
  have hne : (ofList es).descending.Pairwise (· ≠ ·) :=
    h.perm_descending.nodup_iff.2 h.distinct.of_map
  have happly : applyAll (ofList es).descending source = .ok fixed := by
    refine applyAll_of_clampTo (fun e he => h.ordered e (hmem he)) h.descending_apart ?_ hclamped
    apply (hne.and (ofList es).descending_pairwise).imp_of_mem
    intro a b ha hb hab hlt
    exact hempty b (hmem hb) a (hmem ha) hab.1.symm hab.2 hlt
  exact ⟨_, fixed, horder, hsplice, by rw [apply, h.noConflict, happly]⟩

end Clampable

def marked (s : Span) (e : TextEdit) : TextEdit := ⟨e.span, if e.span = s then ['x'] else ['y']⟩

theorem marked_isNoop (s : Span) (e : TextEdit) : (marked s e).isNoop = false := by
  unfold marked TextEdit.isNoop
  split <;> simp

theorem text_marked_of_ne {s : Span} {e : TextEdit} (h : e.span ≠ s) :
    (marked s e).text = ['y'] := by
  rw [marked, if_neg h]

theorem Clampable.map_marked {source : Text} {es : List TextEdit} (h : Clampable source es)
    (s : Span) : Clampable source (es.map (marked s)) where
  changes e he := by
    obtain ⟨e', -, rfl⟩ := List.mem_map.1 he
    exact marked_isNoop s e'
  ordered e he := by
    obtain ⟨e', he', rfl⟩ := List.mem_map.1 he
    exact h.ordered e' he'
  distinct := by
    rw [List.map_map]
    exact h.distinct
  noConflict := by
    have hfilter : (es.map (marked s)).filter (!·.isNoop) = es.map (marked s) :=
      List.filter_eq_self.2 fun e he => by
        obtain ⟨e', -, rfl⟩ := List.mem_map.1 he
        simp [marked_isNoop]
    have hapart := pairwise_apart_of_conflict?_eq_none h.ordered h.noConflict
    rw [h.filter_eq] at hapart
    rw [conflict?_eq_none_iff, edits_ofList, hfilter]
    · exact List.pairwise_map.2 hapart
    · rw [edits_ofList, hfilter]
      intro e he
      obtain ⟨e', he', rfl⟩ := List.mem_map.1 he
      exact h.ordered e' he'
  fits e he := by
    obtain ⟨e', he', rfl⟩ := List.mem_map.1 he
    exact ⟨(h.fits e' he').ordered, (h.fits e' he').inside, (h.fits e' he').start_boundary,
      (h.fits e' he').stop_boundary⟩

theorem Clampable.descending_map_marked {source : Text} {es : List TextEdit}
    (h : Clampable source es) (s : Span) :
    (ofList (es.map (marked s))).descending = (ofList es).descending.map (marked s) := by
  rw [descending, descending, edits_ofList, edits_ofList, (h.map_marked s).filter_eq, h.filter_eq]
  exact (List.map_mergeSort (f := marked s) (s := fun a b => b.le a) fun a _ b _ => rfl).symm

theorem Clampable.exists_last_two {source : Text} {es : List TextEdit} (h : Clampable source es)
    {a b : TextEdit} (ha : a ∈ es) (hb : b ∈ es) (hne : a ≠ b)
    (hpasta : Text.size source < a.span.stop) (hpastb : Text.size source < b.span.stop) :
    ∃ last next rest, (ofList es).descending = last :: next :: rest ∧
      Text.size source < next.span.stop ∧ Text.size source < last.span.start := by
  have hapart := h.descending_apart
  rw [← h.perm_descending.mem_iff] at ha hb
  have hordered : ∀ e ∈ (ofList es).descending, e.span.start ≤ e.span.stop :=
    fun e he => h.ordered e (h.perm_descending.mem_iff.1 he)
  cases hdesc : (ofList es).descending with
  | nil => simp [hdesc] at ha
  | cons last below =>
    rw [hdesc] at ha hb hapart hordered
    obtain ⟨hlast, hapart⟩ := List.pairwise_cons.1 hapart
    -- One of the two edits is not the last one.
    obtain ⟨e, he, hpast⟩ : ∃ e ∈ below, Text.size source < e.span.stop := by
      rcases List.mem_cons.1 ha with rfl | ha
      · rcases List.mem_cons.1 hb with rfl | hb
        · exact absurd rfl hne
        · exact ⟨b, hb, hpastb⟩
      · exact ⟨a, ha, hpasta⟩
    have hstart := hlast e he
    cases below with
    | nil => cases he
    | cons next rest =>
      refine ⟨last, next, rest, rfl, ?_, by omega⟩
      rcases List.mem_cons.1 he with rfl | he
      · exact hpast
      · have hnext := (List.pairwise_cons.1 hapart).1 e he
        have hle := hordered next (by simp)
        omega

section LastTwo

variable {source fixed : Text} {es rest : List TextEdit} {last next : TextEdit}
  (h : Clampable source es) (hdesc : (ofList es).descending = last :: next :: rest)
include h hdesc

theorem Clampable.descending_marked :
    (ofList (es.map (marked last.span))).descending =
      marked last.span last :: (next :: rest).map (marked last.span) := by
  rw [h.descending_map_marked, hdesc, List.map_cons]

theorem Clampable.text_marked_below :
    ∀ e ∈ (next :: rest).map (marked last.span), e.text = ['y'] := by
  have hspans := (h.perm_descending.map TextEdit.span).nodup_iff.2 h.distinct
  rw [hdesc, List.map_cons, List.nodup_cons] at hspans
  intro e he
  obtain ⟨e', he', rfl⟩ := List.mem_map.1 he
  exact text_marked_of_ne fun heq => hspans.1 (heq ▸ List.mem_map_of_mem he')

theorem Clampable.getLast?_of_splice (hlast : Text.size source < last.span.start)
    {sorted : List TextEdit} (horder : SpliceOrder (es.map (marked last.span)) sorted)
    (hsplice : splice? source 0 (sorted.map (·.clampTo source)) = some fixed) :
    fixed.getLast? = some 'x' := by
  have hsorted : sorted =
      ((next :: rest).map (marked last.span)).reverse ++ [marked last.span last] := by
    rw [horder.eq_descending, h.descending_marked hdesc, List.reverse_cons]
  rw [hsorted, List.map_append, List.map_singleton] at hsplice
  have hle := h.ordered last (h.perm_descending.mem_iff.1 (by simp [hdesc]))
  have hstop : ((marked last.span last).clampTo source).span.stop = Text.size source := by
    simp only [TextEdit.clampTo, marked]
    omega
  obtain ⟨front, rfl⟩ := exists_of_splice?_concat hsplice hstop
  simp [TextEdit.clampTo, marked]

/-- The edit before the last one takes the text behind the source for a part of the source and puts
its own text behind it. No later edit changes the last character. -/
theorem Clampable.getLast?_of_apply (hlast : Text.size source < last.span.start)
    (hnext : Text.size source < next.span.stop)
    (happly : (ofList (es.map (marked last.span))).apply source = .ok fixed) :
    fixed.getLast? = some 'y' := by
  have hbelow := h.text_marked_below hdesc
  rw [apply, (h.map_marked last.span).noConflict, h.descending_marked hdesc] at happly
  obtain ⟨t, ht, hrest⟩ := exists_of_applyAll_cons happly
  obtain ⟨u, hu, hrest⟩ := exists_of_applyAll_cons hrest
  have hadded : (marked last.span last).applyTo? source = some (source ++ ['x']) := by
    rw [TextEdit.applyTo?_of_size_le (e := marked last.span last) (Nat.le_of_lt hlast), marked,
      if_pos rfl]
  have hsize : Text.size t ≤ next.span.stop := by
    rw [hadded] at ht
    cases ht
    rw [Text.size_append]
    exact hnext
  have hlastu : u.getLast? = some 'y' :=
    TextEdit.getLast?_of_applyTo? hu (by rw [hbelow _ (by simp)]; rfl) (Or.inl hsize)
  refine getLast?_of_applyAll (fun e he => ?_) hlastu hrest
  rw [hbelow e (by simp [he])]
  rfl

end LastTwo

/-- Where two edits end past the end of the source, some edits with the same spans are not made as
if their offsets were moved back to it. -/
theorem Clampable.exists_not_clamps {source : Text} {es : List TextEdit} (h : Clampable source es)
    {a b : TextEdit} (ha : a ∈ es) (hb : b ∈ es) (hne : a ≠ b)
    (hpasta : Text.size source < a.span.stop) (hpastb : Text.size source < b.span.stop) :
    ∃ fs, fs.map TextEdit.span = es.map TextEdit.span ∧ Clampable source fs ∧
      ¬ Clamps source fs := by
  obtain ⟨last, next, rest, hdesc, hnext, hlast⟩ := h.exists_last_two ha hb hne hpasta hpastb
  refine ⟨es.map (marked last.span), by simp [marked, Function.comp_def],
    h.map_marked last.span, ?_⟩
  rintro ⟨sorted, fixed, horder, hsplice, happly⟩
  have hx := h.getLast?_of_splice hdesc hlast horder hsplice
  have hy := h.getLast?_of_apply hdesc hlast hnext happly
  rw [hx] at hy
  exact absurd (Option.some.inj hy) (by decide)

/-- Offsets past the end of the source stand for its end unless an edit that ends past it comes
before one with a text. The condition cannot be left out: of two edits that end past the end, there
are some with the same spans for which they do not. -/
theorem clamps_unless_text_behind {source : Text} {es : List TextEdit} (h : Clampable source es) :
    ((∀ a ∈ es, ∀ b ∈ es, a ≠ b → a.le b = true → Text.size source < a.span.stop → b.text = []) →
      Clamps source es) ∧
    ∀ a ∈ es, ∀ b ∈ es, a ≠ b → Text.size source < a.span.stop → Text.size source < b.span.stop →
      ∃ fs, fs.map TextEdit.span = es.map TextEdit.span ∧ Clampable source fs ∧
        ¬ Clamps source fs :=
  ⟨h.clamps, fun _ ha _ hb hne hpasta hpastb => h.exists_not_clamps ha hb hne hpasta hpastb⟩

def trailingEdits : List TextEdit :=
  [⟨⟨1, 9⟩, "X".toList⟩, .insert 0 "ü".toList, ⟨⟨9, 12⟩, []⟩]

theorem trailingEdits_clamped :
    Clampable "aé".toList trailingEdits ∧ Clamps "aé".toList trailingEdits ∧
    (ofList trailingEdits).apply "aé".toList = .ok "üaX".toList ∧
    ∃ fs, fs.map TextEdit.span = trailingEdits.map TextEdit.span ∧ Clampable "aé".toList fs ∧
      ¬ Clamps "aé".toList fs := by
  have h : Clampable "aé".toList trailingEdits :=
    ⟨by decide, by decide, by decide, by cbv, by decide⟩
  obtain ⟨hclamps, hfails⟩ := clamps_unless_text_behind h
  exact ⟨h, hclamps (by decide), by cbv,
    hfails ⟨⟨1, 9⟩, "X".toList⟩ (by decide) ⟨⟨9, 12⟩, []⟩ (by decide) (by decide) (by decide)
      (by decide)⟩

/-- Of two insertions past the end of `abc`, the one with the lower offset is made behind the other
one. -/
theorem insertions_past_end_swapped :
    ¬ ∀ source es, Clampable source es → (∃ e ∈ es, Text.size source < e.span.stop) →
      Clamps source es := by
  intro hall
  let es : List TextEdit := [.insert 5 "Z".toList, .insert 10 "XY".toList]
  have h : Clampable "abc".toList es := ⟨by decide, by decide, by decide, by cbv, by decide⟩
  obtain ⟨sorted, fixed, horder, hsplice, happly⟩ := hall "abc".toList es h (by decide)
  have hdesc : (ofList es).descending = es.reverse := by cbv
  obtain rfl : sorted = es := by rw [horder.eq_descending, hdesc, List.reverse_reverse]
  have hspliced : splice? "abc".toList 0 (es.map (·.clampTo "abc".toList)) =
      some "abcZXY".toList := by decide
  have hmade : (ofList es).apply "abc".toList = .ok "abcXYZ".toList := by cbv
  rw [hspliced] at hsplice
  rw [hmade] at happly
  cases hsplice
  revert happly
  decide

end ChangeSet
end TypeComments
