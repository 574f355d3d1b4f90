import Mathlib.Data.List.Perm.Subperm
import TypeComments.Proofs.Edit

/-! Conflicts between the edits of a change set. Only neighbours in the sorted list are compared.
The starts ascend there, so that an edit that ends before the next one starts ends before all later
ones do, and no overlap of edits that are far from each other is missed. Nothing in this depends on
the order in which the edits were added. -/

namespace TypeComments

namespace TextEdit

/-- One of the edits ends before the other one starts, or where it starts. -/
def Apart (a b : TextEdit) : Prop := a.span.stop ≤ b.span.start ∨ b.span.stop ≤ a.span.start

instance (a b : TextEdit) : Decidable (a.Apart b) := inferInstanceAs (Decidable (_ ∨ _))

theorem Apart.symm {a b : TextEdit} (h : a.Apart b) : b.Apart a := Or.symm h

theorem apart_iff_of_le {a b : TextEdit} (hle : a.le b = true) (hb : b.span.start ≤ b.span.stop) :
    a.Apart b ↔ a.span.stop ≤ b.span.start := by
  rw [le_iff] at hle
  unfold Apart
  omega

end TextEdit

namespace ChangeSet

theorem pairwise_apart_iff {es : List TextEdit} (hle : es.Pairwise fun a b => a.le b = true)
    (hordered : ∀ e ∈ es, e.span.start ≤ e.span.stop) :
    es.Pairwise TextEdit.Apart ↔ es.Pairwise fun a b => a.span.stop ≤ b.span.start := by
  constructor
  · intro h
    apply (hle.and h).imp_of_mem
    intro a b _ hb hab
    exact (TextEdit.apart_iff_of_le hab.1 (hordered b hb)).1 hab.2
  · exact List.Pairwise.imp Or.inl

theorem firstOverlap?_eq_some {es : List TextEdit} {c : EditConflict}
    (h : firstOverlap? es = some c) :
    (∃ front back, es = front ++ c.first :: c.second :: back) ∧
      c.second.span.start < c.first.span.stop := by
  fun_induction firstOverlap? es with
  | case1 a b rest hlt =>
    cases h
    exact ⟨⟨[], rest, rfl⟩, hlt⟩
  | case2 a b rest _ ih =>
    obtain ⟨⟨front, back, hsplit⟩, hlt⟩ := ih h
    exact ⟨⟨a :: front, back, by rw [hsplit, List.cons_append]⟩, hlt⟩
  | case3 => cases h

theorem mem_of_mem_ofList {es : List TextEdit} {e : TextEdit} (h : e ∈ (ofList es).edits) :
    e ∈ es := by
  rw [edits_ofList] at h
  exact List.mem_of_mem_filter h

section Ordered

variable {c : ChangeSet} (hordered : ∀ e ∈ c.edits, e.span.start ≤ e.span.stop)
include hordered

/-- There is no conflict exactly if every two edits are apart. -/
theorem conflict?_eq_none_iff : c.conflict? = none ↔ c.edits.Pairwise TextEdit.Apart := by
  have hsorted := List.pairwise_mergeSort TextEdit.le_trans TextEdit.le_total c.edits
  have hperm := List.mergeSort_perm c.edits TextEdit.le
  have hordered' : ∀ e ∈ c.edits.mergeSort TextEdit.le, e.span.start ≤ e.span.stop :=
    fun e he => hordered e (hperm.mem_iff.1 he)
  calc c.conflict? = none
      ↔ (c.edits.mergeSort TextEdit.le).Pairwise
          fun a b : TextEdit => a.span.stop ≤ b.span.start :=
        firstOverlap?_eq_none_iff (hsorted.imp TextEdit.start_le_of_le)
    _ ↔ (c.edits.mergeSort TextEdit.le).Pairwise TextEdit.Apart :=
        (pairwise_apart_iff hsorted hordered').symm
    _ ↔ c.edits.Pairwise TextEdit.Apart := hperm.pairwise_iff TextEdit.Apart.symm

theorem conflict?_eq_some {conflict : EditConflict} (h : c.conflict? = some conflict) :
    [conflict.first, conflict.second].Subperm c.edits ∧
      ¬ conflict.first.Apart conflict.second ∧ conflict.first.le conflict.second = true := by
  have hsorted := List.pairwise_mergeSort TextEdit.le_trans TextEdit.le_total c.edits
  have hperm := List.mergeSort_perm c.edits TextEdit.le
  obtain ⟨⟨front, back, hsplit⟩, hlt⟩ := firstOverlap?_eq_some h
  have hsub : [conflict.first, conflict.second].Sublist (c.edits.mergeSort TextEdit.le) := by
    rw [hsplit]
    exact (List.prefix_append [conflict.first, conflict.second] back).sublist.trans
      (List.sublist_append_right front _)
  have hmem : [conflict.first, conflict.second].Subperm c.edits :=
    hsub.subperm.trans hperm.subperm
  have hle : conflict.first.le conflict.second = true :=
    List.rel_of_pairwise_cons (hsorted.sublist hsub) (by simp)
  have hsecond := hordered conflict.second (hmem.subset (by simp))
  refine ⟨hmem, ?_, hle⟩
  rw [TextEdit.apart_iff_of_le hle hsecond]
  exact Nat.not_le_of_lt hlt

end Ordered

theorem apply_eq_of_perm {c d : ChangeSet} (hperm : c.edits.Perm d.edits)
    (hspans : (d.edits.map TextEdit.span).Nodup) (source : Text) :
    c.apply source = d.apply source := by
  have hsorted := List.pairwise_mergeSort TextEdit.le_trans TextEdit.le_total d.edits
  have hperm' := List.mergeSort_perm d.edits TextEdit.le
  have hspans' : ((d.edits.mergeSort TextEdit.le).map TextEdit.span).Nodup :=
    (hperm'.map TextEdit.span).nodup_iff.2 hspans
  have hle : c.edits.mergeSort TextEdit.le = d.edits.mergeSort TextEdit.le :=
    mergeSort_edits (hperm.trans hperm'.symm) hsorted hspans'
  have hge : c.descending = d.descending := by
    rw [descending_eq_reverse (hperm.trans hperm'.symm) hsorted hspans',
      descending_eq_reverse hperm'.symm hsorted hspans']
  simp only [apply, conflict?, hle, hge]

/-- What a change set made from `es` says of conflicts. The two edits of a conflict stand at two
places of the list, even if they are alike. -/
structure FindsConflicts (es : List TextEdit) : Prop where
  complete : (ofList es).conflict? = none ↔ (ofList es).edits.Pairwise TextEdit.Apart
  sound : ∀ conflict, (ofList es).conflict? = some conflict →
    [conflict.first, conflict.second].Subperm (ofList es).edits ∧
      ¬ conflict.first.Apart conflict.second ∧ conflict.first.le conflict.second = true
  verdict : ∀ fs, fs.Perm es → ((ofList fs).conflict? = none ↔ (ofList es).conflict? = none)
  result : ∀ fs, fs.Perm es → ((ofList es).edits.map TextEdit.span).Nodup →
    ∀ source, (ofList fs).apply source = (ofList es).apply source

/-- The conflicts of edits that do not end before they start are found, whatever the order in which
the edits are added. -/
theorem findsConflicts_of_ordered {es : List TextEdit}
    (hordered : ∀ e ∈ es, e.span.start ≤ e.span.stop) : FindsConflicts es := by
  have hedits (fs : List TextEdit) (hfs : fs.Perm es) :
      (ofList fs).edits.Perm (ofList es).edits := by
    simpa only [edits_ofList] using hfs.filter _
  have hkept (fs : List TextEdit) (hfs : fs.Perm es) :
      ∀ e ∈ (ofList fs).edits, e.span.start ≤ e.span.stop :=
    fun e he => hordered e (hfs.mem_iff.1 (mem_of_mem_ofList he))
  have hself := hkept es (List.Perm.refl es)
  constructor
  case complete => exact conflict?_eq_none_iff hself
  case sound => exact fun _ hconflict => conflict?_eq_some hself hconflict
  case verdict =>
    intro fs hfs
    rw [conflict?_eq_none_iff (hkept fs hfs), conflict?_eq_none_iff hself]
    exact (hedits fs hfs).pairwise_iff TextEdit.Apart.symm
  case result => exact fun fs hfs hspans source => apply_eq_of_perm (hedits fs hfs) hspans source

def crossedEdits : List TextEdit :=
  [⟨⟨5, 15⟩, "b".toList⟩, .insert 15 "y".toList, .insert 9 [], .insert 7 "x".toList,
    ⟨⟨0, 5⟩, "a".toList⟩]

theorem crossedEdits_conflict :
    (∀ e ∈ crossedEdits, e.span.start ≤ e.span.stop) ∧
    (ofList crossedEdits).conflict? =
      some ⟨⟨⟨5, 15⟩, "b".toList⟩, .insert 7 "x".toList⟩ ∧
    (ofList crossedEdits.reverse).conflict? ≠ none ∧ FindsConflicts crossedEdits := by
  have hordered : ∀ e ∈ crossedEdits, e.span.start ≤ e.span.stop := by decide
  have hsorted : (ofList crossedEdits).edits.mergeSort TextEdit.le =
      [⟨⟨0, 5⟩, "a".toList⟩, ⟨⟨5, 15⟩, "b".toList⟩, .insert 7 "x".toList, .insert 15 "y".toList] :=
    mergeSort_edits (by decide) (by decide) (by decide)
  have hconflict : (ofList crossedEdits).conflict? =
      some ⟨⟨⟨5, 15⟩, "b".toList⟩, .insert 7 "x".toList⟩ := by
    rw [conflict?, hsorted]
    decide
  have hfinds := findsConflicts_of_ordered hordered
  refine ⟨hordered, hconflict, ?_, hfinds⟩
  rw [Ne, hfinds.verdict _ (List.reverse_perm _), hconflict]
  exact Option.some_ne_none _

end ChangeSet
end TypeComments
