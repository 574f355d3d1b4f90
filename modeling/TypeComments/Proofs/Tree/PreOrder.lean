import Mathlib.Data.Finset.Card
import Mathlib.Data.Finset.Filter
import Mathlib.Data.Finset.Range
import Mathlib.Logic.Relation
import TypeComments.Tree.Walk

/-! Trees without cycles. The depth to which walks are cut is deep enough for every table of nodes
whose links, followed from the root, never come back: `descendants` is then the listing of a walk
that has no bound at all, `walkBelow` the state it ends with, and `locate` the end of a descent that
has none. -/

namespace TypeComments
namespace SyntaxTree

def IsChild (t : SyntaxTree) (n c : NodeId) : Prop := c ∈ t.children n

def Reaches (t : SyntaxTree) : NodeId → NodeId → Prop := Relation.ReflTransGen t.IsChild

/-- No child of a node below the root leads back to that node. -/
def Acyclic (t : SyntaxTree) : Prop :=
  ∀ n c, t.Reaches root n → t.IsChild n c → ¬ t.Reaches c n

theorem acyclic_of_lt {t : SyntaxTree} (h : ∀ n < t.nodeCount, ∀ c ∈ t.children n, n < c) :
    t.Acyclic := by
  have hstep : ∀ n c, t.IsChild n c → n < c := by
    intro n c hc
    by_cases hn : n < t.nodeCount
    · exact h n hn c hc
    · have hnil := children_eq_nil_of_le (Nat.le_of_not_lt hn)
      rw [IsChild, hnil] at hc
      cases hc
  have hreach : ∀ n m, t.Reaches n m → n ≤ m := by
    intro n m hm
    induction hm with
    | refl => exact Nat.le_refl n
    | tail _ hc ih => exact Nat.le_trans ih (Nat.le_of_lt (hstep _ _ hc))
  intro n c _ hc hback
  have hlt := hstep n c hc
  have hle := hreach c n hback
  exact absurd hlt (Nat.not_lt.2 hle)

/-- A walk that has still to enter the nodes `todo`, in this order, meets the second list. -/
inductive PreOrder (t : SyntaxTree) : (todo : List NodeId) → List NodeId → Prop
  | done : PreOrder t [] []
  | enter {n : NodeId} {todo ns : List NodeId} :
    PreOrder t (t.children n ++ todo) ns → PreOrder t (n :: todo) (n :: ns)

/-- A walk over the nodes `todo`, each followed by what is below it, takes the first state to the
second. A node is passed over if the state is `done` when its turn comes. -/
inductive Walks {σ : Type} (t : SyntaxTree) (done : σ → Bool) (visit : σ → NodeId → σ) :
    (todo : List NodeId) → σ → σ → Prop
  | nil {s : σ} : Walks t done visit [] s s
  | skip {n : NodeId} {todo : List NodeId} {s s' : σ} :
    done s = true → Walks t done visit todo s s' → Walks t done visit (n :: todo) s s'
  | enter {n : NodeId} {todo : List NodeId} {s s₁ s₂ : σ} :
    done s = false → Walks t done visit (t.children n) (visit s n) s₁ →
      Walks t done visit todo s₁ s₂ → Walks t done visit (n :: todo) s s₂

/-- A descent from the first node, always into the first child that contains `offset`, ends at the
second. -/
inductive DescendsTo (t : SyntaxTree) (offset : Nat) : NodeId → NodeId → Prop
  | here {n : NodeId} : t.childAt? n offset = none → DescendsTo t offset n n
  | down {n c m : NodeId} :
    t.childAt? n offset = some c → DescendsTo t offset c m → DescendsTo t offset n m

theorem PreOrder.unique {t : SyntaxTree} {todo ns ms : List NodeId} (hn : t.PreOrder todo ns)
    (hm : t.PreOrder todo ms) : ns = ms := by
  induction hn generalizing ms with
  | done => cases hm; rfl
  | enter _ ih =>
    cases hm with
    | enter h => rw [ih h]

theorem PreOrder.mem_iff {t : SyntaxTree} {todo ns : List NodeId} (h : t.PreOrder todo ns)
    (m : NodeId) : m ∈ ns ↔ ∃ n ∈ todo, t.Reaches n m := by
  induction h with
  | done => simp
  | @enter n todo ns _ ih =>
    have hn : t.Reaches n m ↔ n = m ∨ ∃ c ∈ t.children n, t.Reaches c m :=
      Relation.ReflTransGen.cases_head_iff
    rw [List.exists_mem_cons_iff, hn, List.mem_cons, ih, eq_comm, or_assoc]
    simp only [List.mem_append, or_and_right, exists_or]

theorem PreOrder.sublist {t : SyntaxTree} {todo ns : List NodeId} (h : t.PreOrder todo ns) :
    todo.Sublist ns := by
  induction h with
  | done => exact List.Sublist.refl []
  | enter _ ih => exact ((List.sublist_append_right _ _).trans ih).cons_cons _

theorem PreOrder.cons_children_sublist {t : SyntaxTree} {todo ns : List NodeId}
    (h : t.PreOrder todo ns) {n : NodeId} (hn : n ∈ ns) : (n :: t.children n).Sublist ns := by
  induction h with
  | done => cases hn
  | enter h ih =>
    rcases List.mem_cons.1 hn with rfl | hlater
    · exact ((List.sublist_append_left _ _).trans h.sublist).cons_cons _
    · exact (ih hlater).cons _

theorem DescendsTo.unique {t : SyntaxTree} {offset : Nat} {n m k : NodeId}
    (hm : t.DescendsTo offset n m) (hk : t.DescendsTo offset n k) : m = k := by
  induction hm with
  | here hnone =>
    cases hk with
    | here => rfl
    | down hsome _ => rw [hnone] at hsome; cases hsome
  | down hsome _ ih =>
    cases hk with
    | here hnone => rw [hsome] at hnone; cases hnone
    | down hsome' h =>
      rw [hsome] at hsome'
      cases hsome'
      exact ih h

open Classical in
/-- The number of nodes of the table that can be reached from `n`. -/
noncomputable def reach (t : SyntaxTree) (n : NodeId) : Nat :=
  ((Finset.range t.nodeCount).filter (t.Reaches n)).card

theorem reach_le (t : SyntaxTree) (n : NodeId) : t.reach n ≤ t.nodeCount := by
  classical
  have h := Finset.card_filter_le (Finset.range t.nodeCount) (t.Reaches n)
  rwa [Finset.card_range] at h

theorem lt_nodeCount_of_isChild {t : SyntaxTree} {n c : NodeId} (h : t.IsChild n c) :
    n < t.nodeCount := by
  by_contra hn
  have hnil := children_eq_nil_of_le (Nat.le_of_not_lt hn)
  rw [IsChild, hnil] at h
  cases h

theorem reach_child_lt {t : SyntaxTree} (ht : t.Acyclic) {n c : NodeId} (hn : t.Reaches root n)
    (hc : t.IsChild n c) : t.reach c < t.reach n := by
  classical
  apply Finset.card_lt_card
  rw [Finset.ssubset_iff_of_subset]
  · refine ⟨n, ?_, ?_⟩
    · simp only [Finset.mem_filter, Finset.mem_range]
      exact ⟨lt_nodeCount_of_isChild hc, Relation.ReflTransGen.refl⟩
    · simp only [Finset.mem_filter, not_and]
      exact fun _ => ht n c hn hc
  · intro m hm
    simp only [Finset.mem_filter] at hm ⊢
    exact ⟨hm.1, Relation.ReflTransGen.head hc hm.2⟩

theorem children_eq_nil_of_reach {t : SyntaxTree} (ht : t.Acyclic) {n : NodeId}
    (hn : t.Reaches root n) (h : t.reach n ≤ 0) : t.children n = [] := by
  apply List.eq_nil_iff_forall_not_mem.2
  intro c hc
  have := reach_child_lt ht hn hc
  omega

theorem below_succ {t : SyntaxTree} (ht : t.Acyclic) {depth : Nat} {n : NodeId}
    (hn : t.Reaches root n) (hdepth : t.reach n ≤ depth) :
    t.below (depth + 1) n = t.below depth n := by
  induction depth generalizing n with
  | zero => simp [below, children_eq_nil_of_reach ht hn hdepth]
  | succ depth ih =>
    rw [below, below]
    apply List.flatMap_congr
    intro c hc
    have hlt := reach_child_lt ht hn hc
    rw [ih (Relation.ReflTransGen.tail hn hc) (by omega)]

/-- The listing of the nodes below `n` is put together from the listings below its children. -/
theorem descendants_eq {t : SyntaxTree} (ht : t.Acyclic) {n : NodeId} (hn : t.Reaches root n) :
    t.descendants n = (t.children n).flatMap fun c => c :: t.descendants c := by
  rw [descendants, ← below_succ ht hn (t.reach_le n), below]
  rfl

theorem PreOrder.flatMap_append {t : SyntaxTree} {f : NodeId → List NodeId} {cs : List NodeId}
    (hcs : ∀ c ∈ cs, ∀ todo ns, t.PreOrder todo ns → t.PreOrder (c :: todo) (c :: f c ++ ns))
    {todo ns : List NodeId} (h : t.PreOrder todo ns) :
    t.PreOrder (cs ++ todo) (cs.flatMap (fun c => c :: f c) ++ ns) := by
  induction cs with
  | nil => simpa using h
  | cons c cs ih =>
    have hrest := ih fun d hd => hcs d (by simp [hd])
    have hfirst := hcs c (by simp) _ _ hrest
    simpa [List.append_assoc] using hfirst

theorem preOrder_cons {t : SyntaxTree} (ht : t.Acyclic) {n : NodeId} (hn : t.Reaches root n)
    {todo ns : List NodeId} (h : t.PreOrder todo ns) :
    t.PreOrder (n :: todo) (n :: t.descendants n ++ ns) := by
  -- The children of `n` reach fewer nodes than `n` does.
  induction hr : t.reach n using Nat.strong_induction_on generalizing n todo ns with
  | h r ih =>
    rw [descendants_eq ht hn]
    apply PreOrder.enter
    apply PreOrder.flatMap_append _ h
    intro c hc todo' ns' h'
    have hlt := reach_child_lt ht hn hc
    exact ih _ (by omega) (Relation.ReflTransGen.tail hn hc) h' rfl

/-- A walk over the nodes below the root meets the descendants of the root and then ends. -/
theorem preOrder_descendants {t : SyntaxTree} (ht : t.Acyclic) :
    t.PreOrder (t.children root) (t.descendants root) := by
  have h := preOrder_cons ht Relation.ReflTransGen.refl PreOrder.done
  cases h with
  | enter h => simpa using h

theorem mem_descendants_root_iff {t : SyntaxTree} (ht : t.Acyclic) (n : NodeId) :
    n ∈ t.descendants root ↔ Relation.TransGen t.IsChild root n := by
  rw [(preOrder_descendants ht).mem_iff, Relation.TransGen.head'_iff]
  rfl

theorem Walks.unique {σ : Type} {t : SyntaxTree} {done : σ → Bool} {visit : σ → NodeId → σ}
    {todo : List NodeId} {s s₁ s₂ : σ} (h₁ : t.Walks done visit todo s s₁)
    (h₂ : t.Walks done visit todo s s₂) : s₁ = s₂ := by
  induction h₁ generalizing s₂ with
  | nil => cases h₂; rfl
  | skip hdone _ ih =>
    cases h₂ with
    | skip _ h => exact ih h
    | enter hgoes _ _ => rw [hdone] at hgoes; cases hgoes
  | enter hgoes _ _ ihbelow ihrest =>
    cases h₂ with
    | skip hdone _ => rw [hgoes] at hdone; cases hdone
    | enter _ hbelow hrest =>
      obtain rfl := ihbelow hbelow
      exact ihrest hrest

theorem Walks.foldl {σ : Type} {t : SyntaxTree} {done : σ → Bool} {visit : σ → NodeId → σ}
    {below : NodeId → σ → σ} {cs : List NodeId}
    (hcs : ∀ c ∈ cs, ∀ s, t.Walks done visit (t.children c) s (below c s)) (s : σ) :
    t.Walks done visit cs s
      (cs.foldl (fun s c => if done s then s else below c (visit s c)) s) := by
  induction cs generalizing s with
  | nil => exact Walks.nil
  | cons c cs ih =>
    have hrest := ih fun d hd => hcs d (by simp [hd])
    rw [List.foldl_cons]
    cases hs : done s with
    | true => exact Walks.skip hs (hrest s)
    | false => exact Walks.enter hs (hcs c (by simp) (visit s c)) (hrest _)

/-- A walk below a node comes to an end, in the state that a walk cut at a sufficient depth leaves.
-/
theorem walks_walkBelow {σ : Type} {t : SyntaxTree} (ht : t.Acyclic) (done : σ → Bool)
    (visit : σ → NodeId → σ) {depth : Nat} {n : NodeId} (hn : t.Reaches root n)
    (hdepth : t.reach n ≤ depth) (s : σ) :
    t.Walks done visit (t.children n) s (t.walkBelow done visit depth n s) := by
  induction depth generalizing n s with
  | zero =>
    rw [children_eq_nil_of_reach ht hn hdepth]
    exact Walks.nil
  | succ depth ih =>
    rw [walkBelow]
    apply Walks.foldl
    intro c hc s
    have hlt := reach_child_lt ht hn hc
    exact ih (Relation.ReflTransGen.tail hn hc) (by omega) s

theorem descendsTo_descendTo {t : SyntaxTree} (ht : t.Acyclic) {offset depth : Nat} {n : NodeId}
    (hn : t.Reaches root n) (hdepth : t.reach n ≤ depth) :
    t.DescendsTo offset n (t.descendTo offset depth n) := by
  induction depth generalizing n with
  | zero =>
    apply DescendsTo.here
    rw [childAt?, children_eq_nil_of_reach ht hn hdepth]
    rfl
  | succ depth ih =>
    rw [descendTo]
    cases hc : t.childAt? n offset with
    | none => exact DescendsTo.here hc
    | some c =>
      have hchild : t.IsChild n c := List.mem_of_find?_eq_some hc
      have hlt := reach_child_lt ht hn hchild
      exact DescendsTo.down hc (ih (Relation.ReflTransGen.tail hn hchild) (by omega))

theorem locate_eq_some_iff {t : SyntaxTree} (ht : t.Acyclic) {offset : Nat} {m : NodeId} :
    t.locate offset = some m ↔ ∃ c, t.childAt? root offset = some c ∧ t.DescendsTo offset c m := by
  have hdeep : ∀ c, t.childAt? root offset = some c →
      t.DescendsTo offset c (t.descendTo offset t.nodeCount c) := by
    intro c hc
    have hchild : t.IsChild root c := List.mem_of_find?_eq_some hc
    exact descendsTo_descendTo ht (Relation.ReflTransGen.single hchild) (t.reach_le c)
  rw [locate, Option.map_eq_some_iff]
  constructor
  · rintro ⟨c, hc, rfl⟩
    exact ⟨c, hc, hdeep c hc⟩
  · rintro ⟨c, hc, hm⟩
    exact ⟨c, hc, (hdeep c hc).unique hm⟩

end SyntaxTree
end TypeComments
