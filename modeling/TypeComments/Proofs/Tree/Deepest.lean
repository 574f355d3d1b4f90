import TypeComments.Proofs.Tree.PreOrder

/-! Descents in trees whose spans nest. The nodes at an offset then follow one another on one way
down from the root, since a node is at the offset only if its ancestors are, and no two siblings
are. A descent that goes into the first child at the offset has no choice, and ends at the last of
them. -/

namespace TypeComments
namespace SyntaxTree

/-- Below the root a child covers no offset that its parent does not cover, and two children of one
node have no offset in common. An empty span covers nothing, and may be anywhere. -/
structure Nested (t : SyntaxTree) : Prop where
  inside : ∀ n c, Relation.TransGen t.IsChild root n → t.IsChild n c →
    ∀ offset, (t.span c).contains offset = true → (t.span n).contains offset = true
  apart : ∀ n c d, t.Reaches root n → t.IsChild n c → t.IsChild n d → c ≠ d →
    ∀ offset, (t.span c).contains offset = true → (t.span d).contains offset = false

theorem nested_of_spans {t : SyntaxTree}
    (hinside : ∀ n < t.nodeCount, n ≠ root → ∀ c ∈ t.children n,
      (t.span n).start ≤ (t.span c).start ∧ (t.span c).stop ≤ (t.span n).stop)
    (hapart : ∀ n < t.nodeCount, ∀ c ∈ t.children n, ∀ d ∈ t.children n, c ≠ d →
      (t.span c).stop ≤ (t.span d).start ∨ (t.span d).stop ≤ (t.span c).start)
    (hroot : ∀ n < t.nodeCount, root ∉ t.children n) : t.Nested := by
  constructor
  case inside =>
    intro n c hn hc offset hoffset
    have hne : n ≠ root := by
      rintro rfl
      obtain ⟨m, -, hm⟩ := Relation.TransGen.tail'_iff.1 hn
      exact hroot m (lt_nodeCount_of_isChild hm) hm
    have hspan := hinside n (lt_nodeCount_of_isChild hc) hne c hc
    rw [Span.contains_iff] at hoffset ⊢
    omega
  case apart =>
    intro n c d _ hc hd hne offset hoffset
    have hspan := hapart n (lt_nodeCount_of_isChild hc) c hc d hd hne
    rw [Span.contains_iff] at hoffset
    rw [Bool.eq_false_iff, ne_eq, Span.contains_iff]
    omega

/-- `n` is at the offset, and so are only its ancestors. -/
structure IsDeepestAt (t : SyntaxTree) (offset : Nat) (n : NodeId) : Prop where
  below : Relation.TransGen t.IsChild root n
  contains : (t.span n).contains offset = true
  lowest : ∀ m, Relation.TransGen t.IsChild root m → (t.span m).contains offset = true →
    t.Reaches m n

variable {t : SyntaxTree} {offset : Nat}

theorem of_childAt? {n c : NodeId} (h : t.childAt? n offset = some c) :
    t.IsChild n c ∧ (t.span c).contains offset = true := by
  rw [childAt?, List.find?_eq_some_iff_append] at h
  obtain ⟨hcontains, before, after, hsplit, -⟩ := h
  exact ⟨by rw [IsChild, hsplit]; simp, hcontains⟩

theorem Nested.contains_of_reaches (ht : t.Nested) {n m : NodeId}
    (hn : Relation.TransGen t.IsChild root n) (hm : t.Reaches n m)
    (hoffset : (t.span m).contains offset = true) : (t.span n).contains offset = true := by
  induction hm with
  | refl => exact hoffset
  | tail hreach hchild ih =>
    exact ih (ht.inside _ _ (hn.trans_left hreach) hchild offset hoffset)

/-- Every node at the offset under `n` is under the child of `n` into which a descent goes. -/
theorem Nested.exists_childAt? (ht : t.Nested) {n m : NodeId} (hn : t.Reaches root n)
    (hm : Relation.TransGen t.IsChild n m) (hoffset : (t.span m).contains offset = true) :
    ∃ c, t.childAt? n offset = some c ∧ t.Reaches c m := by
  obtain ⟨d, hd, hreach⟩ := Relation.TransGen.head'_iff.1 hm
  have hbelow : Relation.TransGen t.IsChild root d := Relation.TransGen.tail' hn hd
  have hcovers := ht.contains_of_reaches hbelow hreach hoffset
  cases hc : t.childAt? n offset with
  | none =>
    rw [childAt?, List.find?_eq_none] at hc
    exact absurd hcovers (hc d hd)
  | some c =>
    refine ⟨c, rfl, ?_⟩
    obtain ⟨hchild, hcontains⟩ := of_childAt? hc
    -- The descent goes into `d` itself, because no other child is at the offset.
    by_cases heq : c = d
    · exact heq ▸ hreach
    · have hnot := ht.apart n c d hn hchild hd heq offset hcontains
      rw [hcovers] at hnot
      cases hnot

theorem DescendsTo.reaches {n m : NodeId} (h : t.DescendsTo offset n m) : t.Reaches n m := by
  induction h with
  | here _ => exact Relation.ReflTransGen.refl
  | down hc _ ih => exact Relation.ReflTransGen.head (of_childAt? hc).1 ih

theorem DescendsTo.contains {n m : NodeId} (h : t.DescendsTo offset n m)
    (hn : (t.span n).contains offset = true) : (t.span m).contains offset = true := by
  induction h with
  | here _ => exact hn
  | down hc _ ih => exact ih (of_childAt? hc).2

theorem Nested.reaches_of_descendsTo (ht : t.Nested) {n m k : NodeId} (hn : t.Reaches root n)
    (hm : t.DescendsTo offset n m) (hk : t.Reaches n k)
    (hoffset : (t.span k).contains offset = true) : t.Reaches k m := by
  induction hm with
  | here hnone =>
    rcases Relation.reflTransGen_iff_eq_or_transGen.1 hk with rfl | hbelow
    · exact Relation.ReflTransGen.refl
    · obtain ⟨c, hc, -⟩ := ht.exists_childAt? hn hbelow hoffset
      rw [hnone] at hc
      cases hc
  | @down n c m hsome hdescent ih =>
    rcases Relation.reflTransGen_iff_eq_or_transGen.1 hk with rfl | hbelow
    · exact (DescendsTo.down hsome hdescent).reaches
    · obtain ⟨c', hc', hreach⟩ := ht.exists_childAt? hn hbelow hoffset
      obtain rfl : c = c' := Option.some.inj (hsome.symm.trans hc')
      exact ih (Relation.ReflTransGen.tail hn (of_childAt? hsome).1) hreach

theorem Nested.isDeepestAt (hs : t.Nested) {c n : NodeId} (hc : t.childAt? root offset = some c)
    (hn : t.DescendsTo offset c n) : t.IsDeepestAt offset n := by
  obtain ⟨hchild, hcontains⟩ := of_childAt? hc
  constructor
  case below => exact Relation.TransGen.head' hchild hn.reaches
  case contains => exact hn.contains hcontains
  case lowest =>
    intro m hm hoffset
    obtain ⟨c', hc', hreach⟩ := hs.exists_childAt? Relation.ReflTransGen.refl hm hoffset
    obtain rfl : c = c' := Option.some.inj (hc.symm.trans hc')
    exact hs.reaches_of_descendsTo (Relation.ReflTransGen.single hchild) hn hreach hoffset

/-- In a tree without cycles whose spans nest, the descent to an offset comes to an end. It finds
nothing if no node is at the offset, and else the deepest of them. -/
theorem locate_isDeepestAt (ht : t.Acyclic) (hs : t.Nested) (offset : Nat) :
    (∀ c, t.childAt? root offset = some c →
      ∃ n, t.DescendsTo offset c n ∧ t.locate offset = some n) ∧
    (t.locate offset = none ↔
      ∀ n, Relation.TransGen t.IsChild root n → (t.span n).contains offset = false) ∧
    ∀ n, t.locate offset = some n → t.IsDeepestAt offset n := by
  refine ⟨?_, ?_, ?_⟩
  · intro c hc
    have hreaches : t.Reaches root c := Relation.ReflTransGen.single (of_childAt? hc).1
    have hends : t.DescendsTo offset c (t.descendTo offset t.nodeCount c) :=
      descendsTo_descendTo ht hreaches (t.reach_le c)
    exact ⟨_, hends, (locate_eq_some_iff ht).2 ⟨c, hc, hends⟩⟩
  · rw [locate_eq_none_iff]
    constructor
    · intro hnone n hn
      rw [Bool.eq_false_iff]
      intro hoffset
      obtain ⟨c, hc, -⟩ := hs.exists_childAt? Relation.ReflTransGen.refl hn hoffset
      obtain ⟨hchild, hcontains⟩ := of_childAt? hc
      rw [hnone c hchild] at hcontains
      cases hcontains
    · intro hnone c hc
      exact hnone c (Relation.TransGen.single hc)
  · intro n hn
    obtain ⟨c, hc, hdescent⟩ := (locate_eq_some_iff ht).1 hn
    exact hs.isDeepestAt hc hdescent

def touchingNodes : SyntaxTree :=
  ⟨#[⟨"File", ⟨0, 4⟩, .other, [1, 2]⟩, ⟨"Statement", ⟨0, 6⟩, .other, [3, 4, 5]⟩,
    ⟨"Statement", ⟨6, 9⟩, .other, []⟩, ⟨"Name", ⟨1, 3⟩, .other, []⟩,
    ⟨"Missing", ⟨3, 3⟩, .other, []⟩, ⟨"Call", ⟨3, 6⟩, .other, [6]⟩,
    ⟨"Name", ⟨4, 5⟩, .other, []⟩]⟩

theorem touchingNodes_located :
    touchingNodes.Acyclic ∧ touchingNodes.Nested ∧
    [0, 3, 4, 6, 9].map touchingNodes.locate = [some 1, some 5, some 6, some 2, none] ∧
    touchingNodes.IsDeepestAt 3 5 ∧ touchingNodes.IsDeepestAt 6 2 ∧
    ∀ n, Relation.TransGen touchingNodes.IsChild root n →
      (touchingNodes.span n).contains 9 = false := by
  have hacyclic : touchingNodes.Acyclic := acyclic_of_lt (by decide)
  have hnested : touchingNodes.Nested := nested_of_spans (by decide) (by decide) (by decide)
  have hlocate := locate_isDeepestAt hacyclic hnested
  exact ⟨hacyclic, hnested, by decide, (hlocate 3).2.2 5 (by decide), (hlocate 6).2.2 2 (by decide),
    (hlocate 9).2.1.1 (by decide)⟩

end SyntaxTree
end TypeComments
