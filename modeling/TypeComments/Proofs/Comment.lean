import TypeComments.Comment
import TypeComments.Directive
import TypeComments.Proofs.Lines

/-! Where comments are. A comment opens at the first `//` of its line and at no other; no two
comments of a source share a line, and what a comment holds, the source holds. -/

namespace TypeComments

namespace Text

theorem length_le_of_splitAt? {word t before after x y : Text}
    (h : splitAt? word t = some (before, after)) (hxy : t = x ++ word ++ y) :
    before.length ≤ x.length := by
  induction t generalizing before x with
  | nil =>
    rw [eq_comm, List.append_eq_nil_iff, List.append_eq_nil_iff] at hxy
    simp_all [splitAt?]
  | cons c t ih =>
    rw [splitAt?] at h
    split at h
    · obtain ⟨rfl, -⟩ := Prod.mk.inj (Option.some.inj h)
      exact Nat.zero_le _
    · rename_i hnone
      obtain ⟨⟨a, b⟩, hab, heq⟩ := Option.map_eq_some_iff.1 h
      obtain ⟨rfl, rfl⟩ := Prod.mk.inj heq
      cases x with
      | nil =>
        rw [hxy, List.nil_append, strip?_append] at hnone
        cases hnone
      | cons d x =>
        obtain ⟨-, hxy⟩ := List.cons.inj hxy
        exact Nat.succ_le_succ (ih hab hxy)

theorem splitAt?_eq_some_iff {word t before after : Text} :
    splitAt? word t = some (before, after) ↔ t = before ++ word ++ after ∧
      ∀ x y, t = x ++ word ++ y → before.length ≤ x.length := by
  constructor
  · intro h
    exact ⟨eq_append_of_splitAt? h, fun x y hxy => length_le_of_splitAt? h hxy⟩
  · rintro ⟨ht, hfirst⟩
    have hsome : (splitAt? word t).isSome = true := by
      rw [splitAt?_isSome, holds_iff]
      exact ⟨before, after, ht⟩
    obtain ⟨⟨x, y⟩, hxy⟩ := Option.isSome_iff_exists.1 hsome
    have hxy' := eq_append_of_splitAt? hxy
    have hlength : before.length = x.length :=
      Nat.le_antisymm (hfirst x y hxy') (length_le_of_splitAt? hxy ht)
    rw [ht, List.append_assoc, List.append_assoc] at hxy'
    obtain ⟨rfl, hrest⟩ := List.append_inj hxy' hlength
    obtain rfl := List.append_cancel_left hrest
    exact hxy

theorem splitAt?_append_cons {word : Text} {d : Char} (hd : d ∉ word) (hne : word ≠ []) (p t : Text) :
    splitAt? word (p ++ d :: t) =
      match splitAt? word p with
      | some q => some (q.1, q.2 ++ d :: t)
      | none => (splitAt? word t).map fun q => (p ++ d :: q.1, q.2) := by
  induction p with
  | nil =>
    have hstrip : strip? word (d :: t) = none := by
      rw [Option.eq_none_iff_forall_ne_some]
      intro rest hrest
      have hprefix : word <+: [] ++ d :: t := ⟨rest, (strip?_eq_some_iff.1 hrest).symm⟩
      exact hne (List.prefix_nil.1 (prefix_of_prefix_cons hd hprefix))
    simp [splitAt?, hstrip, hne]
  | cons c p ih =>
    rw [List.cons_append, splitAt?, splitAt?]
    cases hstrip : strip? word (c :: p) with
    | some rest =>
      have hlonger : strip? word (c :: (p ++ d :: t)) = some (rest ++ d :: t) := by
        rw [strip?_eq_some_iff, ← List.cons_append, strip?_eq_some_iff.1 hstrip, List.append_assoc]
      rw [hlonger]
    | none =>
      have hlonger : strip? word (c :: (p ++ d :: t)) = none := by
        rw [Option.eq_none_iff_forall_ne_some]
        intro rest hrest
        have hprefix : word <+: (c :: p) ++ d :: t := ⟨rest, (strip?_eq_some_iff.1 hrest).symm⟩
        obtain ⟨y, hy⟩ := prefix_of_prefix_cons hd hprefix
        rw [strip?_eq_some_iff.2 hy.symm] at hstrip
        cases hstrip
      rw [hlonger]
      simp only [ih]
      cases splitAt? word p with
      | some q => rfl
      | none => simp [Function.comp_def]

theorem holds_of_infix {word t u : Text} (ht : t <:+: u) (h : holds word t = true) :
    holds word u = true := by
  obtain ⟨x, y, rfl⟩ := ht
  obtain ⟨a, b, rfl⟩ := holds_iff.1 h
  exact holds_iff.2 ⟨x ++ a, b ++ y, by simp⟩

end Text

namespace Comment

/-- A comment is its line cut at the first `//`. -/
theorem ofLine?_eq_some_iff {l : Line} {c : Comment} :
    ofLine? l = some c ↔ c.line = l ∧ l.text = c.before ++ opener ++ c.body ∧
      ∀ x y, l.text = x ++ opener ++ y → c.before.length ≤ x.length := by
  rw [ofLine?, Option.map_eq_some_iff]
  constructor
  · rintro ⟨⟨before, body⟩, h, rfl⟩
    exact ⟨rfl, Text.splitAt?_eq_some_iff.1 h⟩
  · rintro ⟨rfl, h⟩
    exact ⟨(c.before, c.body), Text.splitAt?_eq_some_iff.2 h, rfl⟩

theorem all_pairwise_number (source : Text) :
    (all source).Pairwise fun c d => c.line.number < d.line.number := by
  apply List.Pairwise.filterMap ofLine? _ (lines_pairwise_number source)
  intro a b hab c hc d hd
  rwa [line_of_ofLine? hc, line_of_ofLine? hd]

theorem all_nodup (source : Text) : (all source).Nodup := by
  refine (all_pairwise_number source).imp ?_
  rintro c d hlt rfl
  exact Nat.lt_irrefl _ hlt

theorem body_infix_of_mem_all {source : Text} {c : Comment} (h : c ∈ all source) :
    c.body <:+: source := by
  obtain ⟨l, hl, hc⟩ := mem_all.1 h
  have hbody : c.body <:+: l.text := ⟨c.before ++ opener, [], by simp [text_of_ofLine? hc]⟩
  exact hbody.trans (text_infix_of_mem_linesFrom hl)

theorem mayOccur_of_mem_all {source : Text} {c : Comment} (h : c ∈ all source)
    (hc : Directive.mayOccur c.body = true) : Directive.mayOccur source = true := by
  have hinfix := body_infix_of_mem_all h
  rw [Directive.mayOccur, Bool.or_eq_true] at hc ⊢
  exact hc.imp (Text.holds_of_infix hinfix) (Text.holds_of_infix hinfix)

end Comment
end TypeComments
