import TypeComments.Tree.Basic

/-! Walks from a node downwards. Nodes are met in pre-order: each before its children, children in
order, and a shared node once for every way down to it. A walk goes as many levels deep as the tree
has nodes, which every way down without a repeated node fits into. -/

namespace TypeComments
namespace SyntaxTree

/-- The nodes below `n`, at most `depth` levels down. -/
def below (t : SyntaxTree) : (depth : Nat) → NodeId → List NodeId
  | 0, _ => []
  | depth + 1, n => (t.children n).flatMap fun c => c :: t.below depth c

def descendants (t : SyntaxTree) (n : NodeId) : List NodeId := t.below t.nodeCount n

/-- Carry a state through the nodes below `n`, and go no further, neither on nor down, once the
state is `done`. -/
def walkBelow {σ : Type} (t : SyntaxTree) (done : σ → Bool) (visit : σ → NodeId → σ) :
    (depth : Nat) → NodeId → σ → σ
  | 0, _, s => s
  | depth + 1, n, s =>
    (t.children n).foldl
      (fun s c => if done s then s else t.walkBelow done visit depth c (visit s c)) s

theorem walkBelow_eq_foldl {σ : Type} (t : SyntaxTree) (done : σ → Bool) (visit : σ → NodeId → σ)
    (depth : Nat) (n : NodeId) (s : σ) :
    t.walkBelow done visit depth n s =
      (t.below depth n).foldl (fun s c => if done s then s else visit s c) s := by
  have idle (s : σ) (h : done s = true) (ns : List NodeId) :
      ns.foldl (fun s c => if done s then s else visit s c) s = s := by
    induction ns with
    | nil => rfl
    | cons c ns ih => rw [List.foldl_cons, if_pos h, ih]
  induction depth generalizing n s with
  | zero => rfl
  | succ depth ih =>
    rw [walkBelow, below]
    generalize t.children n = cs
    induction cs generalizing s with
    | nil => rfl
    | cons c cs ihc =>
      rw [List.foldl_cons, List.flatMap_cons, List.foldl_append, List.foldl_cons, ihc]
      congr 1
      by_cases h : done s = true
      · rw [if_pos h, if_pos h, idle s h]
      · rw [if_neg h, if_neg h, ih]

def childAt? (t : SyntaxTree) (n : NodeId) (offset : Nat) : Option NodeId :=
  (t.children n).find? fun c => (t.span c).contains offset

/-- Go from `n` to the child at `offset`, again and again, at most `depth` times. -/
def descendTo (t : SyntaxTree) (offset : Nat) : (depth : Nat) → NodeId → NodeId
  | 0, n => n
  | depth + 1, n =>
    match t.childAt? n offset with
    | some c => t.descendTo offset depth c
    | none => n

/-- The deepest node at an offset. The root does not count, so an offset outside its children has
none. -/
def locate (t : SyntaxTree) (offset : Nat) : Option NodeId :=
  (t.childAt? root offset).map (t.descendTo offset t.nodeCount)

theorem locate_eq_none_iff {t : SyntaxTree} {offset : Nat} :
    t.locate offset = none ↔ ∀ c ∈ t.children root, (t.span c).contains offset = false := by
  simp only [locate, childAt?, Option.map_eq_none_iff, List.find?_eq_none, Bool.not_eq_true]

end SyntaxTree
end TypeComments
