import Mathlib.Data.List.Nodup
import TypeComments.Proofs.Tree.PreOrder

/-! Tables that grow by pushes. A node is added before it is linked, so that a push can make it its
own child; any other link is from a node that was there before to one with a greater number. What
the root leads to is then a tree, and a walk meets each of its nodes once. -/

namespace TypeComments
namespace SyntaxTree

section Unshared

variable {t : SyntaxTree}

/-- A node is a child of one node only, and there once. -/
structure Unshared (t : SyntaxTree) : Prop where
  parent : ∀ p q c, t.IsChild p c → t.IsChild q c → p = q
  once : ∀ n, (t.children n).Nodup

def Apart (t : SyntaxTree) (n m : NodeId) : Prop := ¬ t.Reaches n m ∧ ¬ t.Reaches m n

theorem Unshared.reaches_parent (hu : t.Unshared) {n m c : NodeId} (h : t.Reaches m c)
    (hc : t.IsChild n c) : m = c ∨ t.Reaches m n := by
  rcases Relation.ReflTransGen.cases_tail h with heq | ⟨p, hp, hpc⟩
  · exact Or.inl heq.symm
  · obtain rfl := hu.parent p n c hpc hc
    exact Or.inr hp

theorem Unshared.siblings_apart (ht : t.Acyclic) (hu : t.Unshared) {n : NodeId}
    (hn : t.Reaches root n) : (t.children n).Pairwise t.Apart := by
  have hnot : ∀ c d, t.IsChild n c → t.IsChild n d → c ≠ d → ¬ t.Reaches c d := by
    intro c d hc hd hne hreach
    rcases hu.reaches_parent hreach hd with heq | hback
    · exact hne heq
    · exact ht n c hn hc hback
  refine (hu.once n).imp_of_mem ?_
  intro c d hc hd hne
  exact ⟨hnot c d hc hd hne, hnot d c hd hc (Ne.symm hne)⟩

theorem Unshared.child_apart (hu : t.Unshared) {n c m : NodeId} (hc : t.IsChild n c)
    (hm : t.Apart n m) : t.Apart c m := by
  constructor
  · intro hreach
    exact hm.1 (Relation.ReflTransGen.head hc hreach)
  · intro hreach
    rcases hu.reaches_parent hreach hc with rfl | hback
    · exact hm.1 (Relation.ReflTransGen.single hc)
    · exact hm.2 hback

/-- A walk over nodes that are apart meets no node twice. -/
theorem PreOrder.nodup (ht : t.Acyclic) (hu : t.Unshared) {todo ns : List NodeId}
    (h : t.PreOrder todo ns) (hroot : ∀ n ∈ todo, t.Reaches root n)
    (hapart : todo.Pairwise t.Apart) : ns.Nodup := by
  induction h with
  | done => exact List.nodup_nil
  | @enter n todo ns h ih =>
    obtain ⟨hn, htodo⟩ := List.pairwise_cons.1 hapart
    have hnroot : t.Reaches root n := hroot n List.mem_cons_self
    rw [List.nodup_cons]
    constructor
    · rw [h.mem_iff]
      rintro ⟨m, hm, hreach⟩
      rcases List.mem_append.1 hm with hchild | hlater
      · exact ht n m hnroot hchild hreach
      · exact (hn m hlater).2 hreach
    · apply ih
      · intro m hm
        rcases List.mem_append.1 hm with hchild | hlater
        · exact Relation.ReflTransGen.tail hnroot hchild
        · exact hroot m (List.mem_cons_of_mem n hlater)
      · rw [List.pairwise_append]
        exact ⟨hu.siblings_apart ht hnroot, htodo, fun c hc m hm => hu.child_apart hc (hn m hm)⟩

theorem descendants_root_nodup (ht : t.Acyclic) (hu : t.Unshared) :
    (t.descendants root).Nodup :=
  (preOrder_descendants ht).nodup ht hu (fun _ hc => Relation.ReflTransGen.single hc)
    (hu.siblings_apart ht Relation.ReflTransGen.refl)

end Unshared

/-- A step in building a table. A push can name any parent. -/
inductive BuildStep
  | alloc (kind : String) (span : Span)
  | pushChild (parent : NodeId) (kind : String) (span : Span)
  | setShape (n : NodeId) (shape : Shape)

def build (t : SyntaxTree) : BuildStep → SyntaxTree
  | .alloc kind span => t.alloc kind span
  | .pushChild parent kind span => t.pushChild parent kind span
  | .setShape n shape => t.setShape n shape

def buildAll (t : SyntaxTree) (steps : List BuildStep) : SyntaxTree := steps.foldl build t

/-- The link, parent first, that a step makes. A push links the node it adds if its parent is in the
table when the push is made. -/
def link? (t : SyntaxTree) : BuildStep → Option (NodeId × NodeId)
  | .pushChild parent _ _ => if parent < t.nodeCount then some (parent, t.nodeCount) else none
  | .alloc _ _ | .setShape _ _ => none

def links (t : SyntaxTree) : List BuildStep → List (NodeId × NodeId)
  | [] => []
  | step :: steps => (t.link? step).toList ++ (t.build step).links steps

def linkedTo (ls : List (NodeId × NodeId)) (n : NodeId) : List NodeId :=
  ls.filterMap fun l => if l.1 = n then some l.2 else none

theorem mem_linkedTo {ls : List (NodeId × NodeId)} {n c : NodeId} :
    c ∈ linkedTo ls n ↔ (n, c) ∈ ls := by
  simp [linkedTo, List.mem_filterMap]

theorem linkedTo_concat_self (ls : List (NodeId × NodeId)) (n c : NodeId) :
    linkedTo (ls ++ [(n, c)]) n = linkedTo ls n ++ [c] := by
  simp [linkedTo]

theorem linkedTo_concat_of_ne {p n : NodeId} (h : p ≠ n) (ls : List (NodeId × NodeId))
    (c : NodeId) : linkedTo (ls ++ [(p, c)]) n = linkedTo ls n := by
  simp [linkedTo, h]

theorem children_pushChild (t : SyntaxTree) (p : NodeId) (k : String) (s : Span) (n : NodeId) :
    (t.pushChild p k s).children n =
      if p = n ∧ n ≤ t.nodeCount then t.children n ++ [t.nodeCount] else t.children n := by
  rw [pushChild, children_addChild, children_alloc, nodeCount_alloc]
  simp only [Nat.lt_succ_iff]

/-- The children of `n` are the nodes linked to it. A node may be its own child besides, but it is
then linked to nothing. -/
def ChildrenLinked (t : SyntaxTree) (ls : List (NodeId × NodeId)) (n : NodeId) : Prop :=
  t.children n = linkedTo ls n ∨
    t.children n = n :: linkedTo ls n ∧ n ≠ root ∧ ∀ p, (p, n) ∉ ls

/-- A table that pushes have made with these links, each to a node newer than all before. -/
structure GrownBy (t : SyntaxTree) (ls : List (NodeId × NodeId)) : Prop where
  root_lt : root < t.nodeCount
  ascends : ∀ p c, (p, c) ∈ ls → p < c ∧ c < t.nodeCount
  newer : ls.Pairwise fun l l' => l.2 < l'.2
  children : ∀ n, t.ChildrenLinked ls n

namespace GrownBy

variable {t : SyntaxTree} {ls : List (NodeId × NodeId)}

theorem ofSpan (span : Span) : (ofSpan span).GrownBy [] where
  root_lt := Nat.one_pos
  ascends := by simp
  newer := List.Pairwise.nil
  children n := by
    left
    by_cases hn : n = 0
    · subst hn
      rfl
    · exact children_eq_nil_of_le (Nat.one_le_iff_ne_zero.2 hn)

theorem of_le {t' : SyntaxTree} (h : t.GrownBy ls) (hcount : t.nodeCount ≤ t'.nodeCount)
    (hchildren : ∀ n, t'.ChildrenLinked ls n) : t'.GrownBy ls where
  root_lt := Nat.lt_of_lt_of_le h.root_lt hcount
  ascends p c hl := (h.ascends p c hl).imp_right fun hc => Nat.lt_of_lt_of_le hc hcount
  newer := h.newer
  children := hchildren

theorem alloc (h : t.GrownBy ls) (kind : String) (span : Span) :
    (t.alloc kind span).GrownBy ls := by
  apply h.of_le
  · rw [nodeCount_alloc]
    exact Nat.le_succ _
  · intro n
    rw [ChildrenLinked, children_alloc]
    exact h.children n

theorem setShape (h : t.GrownBy ls) (m : NodeId) (shape : Shape) :
    (t.setShape m shape).GrownBy ls := by
  apply h.of_le
  · rw [nodeCount_setShape]
  · intro n
    rw [ChildrenLinked, children_setShape]
    exact h.children n

theorem pushChild_of_le (h : t.GrownBy ls) {p : NodeId} (hp : t.nodeCount ≤ p) (kind : String)
    (span : Span) : (t.pushChild p kind span).GrownBy ls := by
  apply h.of_le
  · rw [nodeCount_pushChild]
    exact Nat.le_succ _
  · intro n
    rw [ChildrenLinked, children_pushChild]
    split
    · rename_i hpn
      obtain rfl : n = t.nodeCount := Nat.le_antisymm hpn.2 (hpn.1 ▸ hp)
      have hnil : linkedTo ls t.nodeCount = [] := by
        rw [List.eq_nil_iff_forall_not_mem]
        intro c hc
        obtain ⟨hlt, hc⟩ := h.ascends _ c (mem_linkedTo.1 hc)
        exact Nat.lt_asymm hlt hc
      right
      refine ⟨by rw [children_eq_nil_of_le (Nat.le_refl _), hnil]; rfl, Nat.ne_of_gt h.root_lt, ?_⟩
      intro q hq
      exact Nat.lt_irrefl _ (h.ascends q _ hq).2
    · exact h.children n

theorem not_linked_concat {n : NodeId} (hnone : ∀ q, (q, n) ∉ ls) (hn : n < t.nodeCount)
    (p q : NodeId) : (q, n) ∉ ls ++ [(p, t.nodeCount)] := by
  intro hq
  rcases List.mem_append.1 hq with hold | hnew
  · exact hnone q hold
  · obtain ⟨-, heq⟩ := Prod.mk.inj (List.mem_singleton.1 hnew)
    exact Nat.ne_of_lt hn heq

theorem childrenLinked_pushChild (h : t.GrownBy ls) {p : NodeId} (hp : p < t.nodeCount)
    (kind : String) (span : Span) (n : NodeId) :
    (t.pushChild p kind span).ChildrenLinked (ls ++ [(p, t.nodeCount)]) n := by
  rw [ChildrenLinked, children_pushChild]
  by_cases hn : p = n
  · subst hn
    rw [if_pos ⟨rfl, Nat.le_of_lt hp⟩, linkedTo_concat_self]
    rcases h.children p with hlinks | ⟨hself, hroot, hnone⟩
    · left
      rw [hlinks]
    · right
      exact ⟨by rw [hself]; rfl, hroot, not_linked_concat hnone hp p⟩
  · rw [if_neg fun hpn => hn hpn.1, linkedTo_concat_of_ne hn]
    refine (h.children n).imp_right ?_
    rintro ⟨hself, hroot, hnone⟩
    -- `n` has a child, so it is in the table and not the node that is added.
    have hchild : t.IsChild n n := by
      rw [IsChild, hself]
      exact List.mem_cons_self
    exact ⟨hself, hroot, not_linked_concat hnone (lt_nodeCount_of_isChild hchild) p⟩

theorem pushChild_of_lt (h : t.GrownBy ls) {p : NodeId} (hp : p < t.nodeCount) (kind : String)
    (span : Span) : (t.pushChild p kind span).GrownBy (ls ++ [(p, t.nodeCount)]) where
  root_lt := by
    rw [nodeCount_pushChild]
    exact Nat.lt_succ_of_lt h.root_lt
  ascends q c hl := by
    rw [nodeCount_pushChild]
    rcases List.mem_append.1 hl with hold | hnew
    · exact (h.ascends q c hold).imp_right Nat.lt_succ_of_lt
    · obtain ⟨rfl, rfl⟩ := Prod.mk.inj (List.mem_singleton.1 hnew)
      exact ⟨hp, Nat.lt_succ_self _⟩
  newer := by
    rw [List.pairwise_append]
    refine ⟨h.newer, List.pairwise_singleton _ _, ?_⟩
    rintro ⟨q, c⟩ hl l' hl'
    obtain rfl := List.mem_singleton.1 hl'
    exact (h.ascends q c hl).2
  children := h.childrenLinked_pushChild hp kind span

theorem build (h : t.GrownBy ls) (step : BuildStep) :
    (t.build step).GrownBy (ls ++ (t.link? step).toList) := by
  cases step with
  | alloc kind span => simpa [link?, SyntaxTree.build] using h.alloc kind span
  | setShape n shape => simpa [link?, SyntaxTree.build] using h.setShape n shape
  | pushChild p kind span =>
    by_cases hp : p < t.nodeCount
    · simpa [link?, SyntaxTree.build, hp] using h.pushChild_of_lt hp kind span
    · simpa [link?, SyntaxTree.build, hp] using h.pushChild_of_le (Nat.le_of_not_lt hp) kind span

theorem buildAll (h : t.GrownBy ls) (steps : List BuildStep) :
    (t.buildAll steps).GrownBy (ls ++ t.links steps) := by
  induction steps generalizing t ls with
  | nil => simpa [links, SyntaxTree.buildAll] using h
  | cons step steps ih =>
    have hrest := ih (h.build step)
    rwa [List.append_assoc] at hrest

theorem isChild_of_mem (h : t.GrownBy ls) {p c : NodeId} (hl : (p, c) ∈ ls) : t.IsChild p c := by
  have hlinked := mem_linkedTo.2 hl
  rcases h.children p with hlinks | ⟨hself, -⟩
  · rwa [IsChild, hlinks]
  · rw [IsChild, hself]
    exact List.mem_cons_of_mem p hlinked

theorem of_isChild (h : t.GrownBy ls) {p c : NodeId} (hc : t.IsChild p c) :
    (p, c) ∈ ls ∨ p = c ∧ ∀ q, (q, c) ∉ ls := by
  rw [IsChild] at hc
  rcases h.children p with hlinks | ⟨hself, -, hnone⟩
  · rw [hlinks] at hc
    exact Or.inl (mem_linkedTo.1 hc)
  · rw [hself] at hc
    rcases List.mem_cons.1 hc with rfl | hlinked
    · exact Or.inr ⟨rfl, hnone⟩
    · exact Or.inl (mem_linkedTo.1 hlinked)

theorem parent_unique (h : t.GrownBy ls) {p q c : NodeId} (hp : (p, c) ∈ ls) (hq : (q, c) ∈ ls) :
    p = q := by
  have hnodup : (ls.map Prod.snd).Nodup :=
    List.pairwise_map.2 (h.newer.imp Nat.ne_of_lt)
  have heq := List.inj_on_of_nodup_map hnodup hp hq rfl
  exact congrArg Prod.fst heq

theorem linkedTo_nodup (h : t.GrownBy ls) (n : NodeId) : (linkedTo ls n).Nodup := by
  rw [List.Nodup, linkedTo, List.pairwise_filterMap]
  refine h.newer.imp ?_
  intro l l' hlt c hc c' hc'
  obtain rfl := Option.some.inj (Option.ite_none_right_eq_some.1 hc).2
  obtain rfl := Option.some.inj (Option.ite_none_right_eq_some.1 hc').2
  exact Nat.ne_of_lt hlt

theorem unshared (h : t.GrownBy ls) : t.Unshared where
  parent p q c hp hq := by
    rcases h.of_isChild hp with hpc | ⟨rfl, hnone⟩
    · rcases h.of_isChild hq with hqc | ⟨-, hnone⟩
      · exact h.parent_unique hpc hqc
      · exact absurd hpc (hnone p)
    · rcases h.of_isChild hq with hqc | ⟨rfl, -⟩
      · exact absurd hqc (hnone q)
      · rfl
  once n := by
    rcases h.children n with hlinks | ⟨hself, -, hnone⟩
    · rw [hlinks]
      exact h.linkedTo_nodup n
    · rw [hself, List.nodup_cons]
      exact ⟨fun hn => hnone n (mem_linkedTo.1 hn), h.linkedTo_nodup n⟩

theorem children_eq_linkedTo (h : t.GrownBy ls) {n : NodeId} (hn : t.Reaches root n) :
    t.children n = linkedTo ls n := by
  induction hn with
  | refl =>
    rcases h.children root with hlinks | ⟨-, hne, -⟩
    · exact hlinks
    · exact absurd rfl hne
  | @tail p n _ hc ih =>
    have hl : (p, n) ∈ ls := by
      rw [IsChild, ih] at hc
      exact mem_linkedTo.1 hc
    rcases h.children n with hlinks | ⟨-, -, hnone⟩
    · exact hlinks
    · exact absurd hl (hnone p)

theorem mem_of_isChild (h : t.GrownBy ls) {n c : NodeId} (hn : t.Reaches root n)
    (hc : t.IsChild n c) : (n, c) ∈ ls := by
  rw [IsChild, h.children_eq_linkedTo hn] at hc
  exact mem_linkedTo.1 hc

theorem le_of_reaches (h : t.GrownBy ls) {n m : NodeId} (hm : t.Reaches n m) : n ≤ m := by
  induction hm with
  | refl => exact Nat.le_refl n
  | tail _ hc ih =>
    rcases h.of_isChild hc with hl | ⟨rfl, -⟩
    · exact Nat.le_trans ih (Nat.le_of_lt (h.ascends _ _ hl).1)
    · exact ih

theorem acyclic (h : t.GrownBy ls) : t.Acyclic := by
  intro n c hn hc hback
  have hlt := (h.ascends n c (h.mem_of_isChild hn hc)).1
  have hle := h.le_of_reaches hback
  exact Nat.not_lt.2 hle hlt

/-- The root leads to what is connected with it by links. -/
theorem transGen_isChild_iff (h : t.GrownBy ls) {n : NodeId} :
    Relation.TransGen t.IsChild root n ↔ Relation.TransGen (fun p c => (p, c) ∈ ls) root n := by
  constructor
  · intro hn
    induction hn with
    | single hc => exact .single (h.mem_of_isChild .refl hc)
    | tail hp hc ih => exact ih.tail (h.mem_of_isChild hp.to_reflTransGen hc)
  · intro hn
    exact Relation.TransGen.mono (fun _ _ hl => h.isChild_of_mem hl) _ _ hn

end GrownBy

/-- The root leads to a tree with these links, which every walk below the root goes through in
pre-order. -/
structure IsTreeOf (t : SyntaxTree) (ls : List (NodeId × NodeId)) : Prop where
  ends : ∀ ns, t.PreOrder (t.children root) ns ↔ ns = t.descendants root
  visits : ∀ {σ : Type} (visit : σ → NodeId → σ) (s s' : σ),
    t.Walks (fun _ => false) visit (t.children root) s s' ↔
      s' = (t.descendants root).foldl visit s
  once : (t.descendants root).Nodup
  connected : ∀ n, n ∈ t.descendants root ↔ Relation.TransGen (fun p c => (p, c) ∈ ls) root n
  root_not_mem : root ∉ t.descendants root
  fromRoot : (linkedTo ls root).Sublist (t.descendants root)
  fromNode : ∀ n ∈ t.descendants root, (n :: linkedTo ls n).Sublist (t.descendants root)
  locates : ∀ offset,
    (t.childAt? root offset = none ∧ t.locate offset = none) ∨
      ∃ c n, t.childAt? root offset = some c ∧ t.DescendsTo offset c n ∧ t.locate offset = some n

/-- A root to which nodes are added by any steps, in any order, leads to the tree of the links that
the pushes have made. -/
theorem buildAll_isTreeOf (span : Span) (steps : List BuildStep) :
    ((ofSpan span).buildAll steps).IsTreeOf ((ofSpan span).links steps) := by
  have h : ((ofSpan span).buildAll steps).GrownBy ((ofSpan span).links steps) :=
    (GrownBy.ofSpan span).buildAll steps
  generalize (ofSpan span).buildAll steps = t at h ⊢
  generalize (ofSpan span).links steps = ls at h ⊢
  have hwalk := preOrder_descendants h.acyclic
  constructor
  case ends => exact fun ns => ⟨fun hns => hns.unique hwalk, fun hns => hns ▸ hwalk⟩
  case visits =>
    intro σ visit s s'
    have hvisits := walks_walkBelow h.acyclic (fun _ => false) visit .refl (t.reach_le root) s
    rw [walkBelow_eq_foldl] at hvisits
    exact ⟨fun hs => hs.unique hvisits, fun hs => hs ▸ hvisits⟩
  case once => exact descendants_root_nodup h.acyclic h.unshared
  case connected => exact fun n => (mem_descendants_root_iff h.acyclic n).trans h.transGen_isChild_iff
  case root_not_mem =>
    rw [mem_descendants_root_iff h.acyclic, Relation.TransGen.head'_iff]
    rintro ⟨c, hc, hback⟩
    exact h.acyclic root c .refl hc hback
  case fromRoot =>
    rw [← h.children_eq_linkedTo .refl]
    exact hwalk.sublist
  case fromNode =>
    intro n hn
    have hreach := ((mem_descendants_root_iff h.acyclic n).1 hn).to_reflTransGen
    rw [← h.children_eq_linkedTo hreach]
    exact hwalk.cons_children_sublist hn
  case locates =>
    intro offset
    cases hc : t.childAt? root offset with
    | none => exact Or.inl ⟨rfl, by rw [locate, hc]; rfl⟩
    | some c =>
      have hreach : t.Reaches root c := .single (List.mem_of_find?_eq_some hc)
      have hends : t.DescendsTo offset c (t.descendTo offset t.nodeCount c) :=
        descendsTo_descendTo h.acyclic hreach (t.reach_le c)
      exact Or.inr ⟨c, _, rfl, hends, (locate_eq_some_iff h.acyclic).2 ⟨c, hc, hends⟩⟩

/-- Node 2 is its own child, node 3 is linked to it, and node 4 to nothing. -/
example :
    ((ofSpan ⟨0, 9⟩).buildAll [.pushChild 0 "Statement" ⟨0, 5⟩, .pushChild 2 "Name" ⟨1, 2⟩,
      .pushChild 2 "Name" ⟨1, 2⟩, .pushChild NodeId.invalid "Name" ⟨3, 4⟩,
      .pushChild 1 "Name" ⟨1, 2⟩, .pushChild 0 "Statement" ⟨5, 9⟩]).descendants root =
      [1, 5, 6] := by
  decide +kernel

end SyntaxTree
end TypeComments
