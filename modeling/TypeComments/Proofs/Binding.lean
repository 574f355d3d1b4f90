import Mathlib.Data.List.Nodup
import TypeComments.Binding

/-! What binding leaves behind. The early end of the walk changes nothing, so binding is a run of
`visit` over the nodes in pre-order: a line gets the first node that starts on it, and stays pending
if there is none. -/

namespace TypeComments
namespace Binding

variable (tree : SyntaxTree) (table : LineTable)

def lineOf (n : NodeId) : Nat := table.lineIndex (tree.span n).start

variable {tree table} in
theorem visit_of_none {b : Binding} {n : NodeId} (h : b.pending[lineOf tree table n]? = none) :
    visit tree table b n = b := by
  rw [lineOf] at h
  simp only [visit, h]

variable {tree table} in
theorem visit_of_some {b : Binding} {n : NodeId} {t : TypeAssertion}
    (h : b.pending[lineOf tree table n]? = some t) :
    visit tree table b n = ⟨b.bound ++ [⟨lineOf tree table n, tree.retarget n, t⟩],
      b.pending.erase (lineOf tree table n)⟩ := by
  rw [lineOf] at h ⊢
  simp only [visit, h]

theorem visit_of_isEmpty {b : Binding} (h : b.pending.isEmpty = true) (n : NodeId) :
    visit tree table b n = b := by
  apply visit_of_none
  rw [Std.ExtTreeMap.isEmpty_iff.1 h]
  simp

theorem ofTree_eq_foldl (pending : Std.ExtTreeMap Nat TypeAssertion) :
    ofTree tree table pending =
      (tree.descendants SyntaxTree.root).foldl (visit tree table) ⟨[], pending⟩ := by
  rw [ofTree, SyntaxTree.walkBelow_eq_foldl, SyntaxTree.descendants]
  congr 1
  funext b n
  split
  · rename_i h
    rw [visit_of_isEmpty tree table h]
  · rfl

theorem pending_visit (b : Binding) (n : NodeId) (l : Nat) :
    (visit tree table b n).pending[l]? =
      if lineOf tree table n = l then none else b.pending[l]? := by
  unfold visit lineOf
  simp only
  split
  · rw [Std.ExtTreeMap.getElem?_erase]
    simp
  · rename_i h
    split
    · rename_i hl
      rw [← hl, h]
    · rfl

/-- Of the assertions bound on a line, a visit adds the one that waits for it. -/
theorem boundOn_visit (b : Binding) (n : NodeId) (l : Nat) :
    (visit tree table b n).bound.filter (·.line = l) = b.bound.filter (·.line = l) ++
      (if lineOf tree table n = l then b.pending[l]?.map (⟨l, tree.retarget n, ·⟩)
        else none).toList := by
  unfold visit lineOf
  simp only
  split
  · rename_i t ht
    rw [List.filter_append]
    by_cases hl : table.lineIndex (tree.span n).start = l
    · subst hl
      simp [ht]
    · simp [hl]
  · rename_i hnone
    by_cases hl : table.lineIndex (tree.span n).start = l
    · subst hl
      simp [hnone]
    · simp [hl]

theorem pending_foldl (b : Binding) (ns : List NodeId) (l : Nat) :
    (ns.foldl (visit tree table) b).pending[l]? =
      if ns.any (fun n => lineOf tree table n = l) then none else b.pending[l]? := by
  induction ns generalizing b with
  | nil => simp
  | cons n ns ih =>
    rw [List.foldl_cons, ih, pending_visit]
    by_cases hn : lineOf tree table n = l <;> simp [hn]

theorem boundOn_foldl (b : Binding) (ns : List NodeId) (l : Nat) :
    (ns.foldl (visit tree table) b).bound.filter (·.line = l) = b.bound.filter (·.line = l) ++
      ((ns.find? (fun n => lineOf tree table n = l)).bind fun n =>
        b.pending[l]?.map (⟨l, tree.retarget n, ·⟩)).toList := by
  induction ns generalizing b with
  | nil => simp
  | cons n ns ih =>
    rw [List.foldl_cons, ih, boundOn_visit, pending_visit]
    by_cases hn : lineOf tree table n = l <;> simp [hn]

theorem pending_ofTree (pending : Std.ExtTreeMap Nat TypeAssertion) (l : Nat) :
    (ofTree tree table pending).pending[l]? =
      if (tree.descendants SyntaxTree.root).any (fun n => lineOf tree table n = l) then none
      else pending[l]? := by
  rw [ofTree_eq_foldl, pending_foldl]

/-- What is bound on a line is its assertion, once, if a node starts there. -/
theorem boundOn_ofTree (pending : Std.ExtTreeMap Nat TypeAssertion) (l : Nat) :
    (ofTree tree table pending).bound.filter (·.line = l) =
      (((tree.descendants SyntaxTree.root).find? (fun n => lineOf tree table n = l)).bind fun n =>
        pending[l]?.map (⟨l, tree.retarget n, ·⟩)).toList := by
  rw [ofTree_eq_foldl, boundOn_foldl]
  simp

theorem mem_bound_ofTree (pending : Std.ExtTreeMap Nat TypeAssertion) (x : Bound) :
    x ∈ (ofTree tree table pending).bound ↔
      ∃ n, (tree.descendants SyntaxTree.root).find? (fun n => lineOf tree table n = x.line) =
          some n ∧
        x.node = tree.retarget n ∧ pending[x.line]? = some x.assertion := by
  have hmem : x ∈ (ofTree tree table pending).bound ↔
      x ∈ (ofTree tree table pending).bound.filter (·.line = x.line) := by simp
  rw [hmem, boundOn_ofTree, Option.mem_toList, Option.bind_eq_some_iff]
  apply exists_congr
  intro n
  apply and_congr_right
  intro _
  cases x
  simp only [Option.map_eq_some_iff, Bound.mk.injEq, true_and]
  constructor
  · rintro ⟨t, ht, rfl, rfl⟩
    exact ⟨rfl, ht⟩
  · rintro ⟨rfl, ht⟩
    exact ⟨_, ht, rfl, rfl⟩

theorem bound_ofTree_pairwise (pending : Std.ExtTreeMap Nat TypeAssertion) :
    (ofTree tree table pending).bound.Pairwise fun x y => x.line ≠ y.line := by
  rw [← List.pairwise_map (f := Bound.line) (R := (· ≠ ·))]
  apply List.nodup_iff_count_le_one.2
  intro l
  have hcount : ((ofTree tree table pending).bound.map Bound.line).count l =
      ((ofTree tree table pending).bound.filter (·.line = l)).length := by
    rw [List.count, List.countP_map, List.countP_eq_length_filter]
    rfl
  rw [hcount, boundOn_ofTree]
  generalize Option.bind _ _ = bound?
  cases bound? <;> simp

def map (f : TypeAssertion → TypeAssertion) (b : Binding) : Binding :=
  ⟨b.bound.map fun x => { x with assertion := f x.assertion }, b.pending.map fun _ => f⟩

theorem visit_map (f : TypeAssertion → TypeAssertion) (b : Binding) (n : NodeId) :
    visit tree table (b.map f) n = (visit tree table b n).map f := by
  unfold visit
  simp only [map, Std.ExtTreeMap.getElem?_map]
  cases b.pending[table.lineIndex (tree.span n).start]? with
  | none => rfl
  | some t =>
    simp only [Option.map_some, List.map_append, List.map_singleton, Binding.mk.injEq, true_and]
    apply Std.ExtTreeMap.ext_getElem?
    intro l
    simp only [Std.ExtTreeMap.getElem?_erase, Std.ExtTreeMap.getElem?_map]
    split <;> simp

/-- Which node an assertion gets does not depend on what it asserts. -/
theorem ofTree_map (f : TypeAssertion → TypeAssertion)
    (pending : Std.ExtTreeMap Nat TypeAssertion) :
    ofTree tree table (pending.map fun _ => f) = (ofTree tree table pending).map f := by
  rw [ofTree_eq_foldl, ofTree_eq_foldl, ← List.foldl_hom (map f) (visit_map tree table f)]
  rfl

def filter (p : TypeAssertion → Bool) (b : Binding) : Binding :=
  ⟨b.bound.filter fun x => p x.assertion, b.pending.filter fun _ => p⟩

theorem mem_pending_filter {p : TypeAssertion → Bool} {b : Binding} {line : Nat} :
    line ∈ (b.filter p).pending ↔ ∃ t, b.pending[line]? = some t ∧ p t = true := by
  rw [Std.ExtTreeMap.mem_iff_isSome_getElem?, filter, Std.ExtTreeMap.getElem?_filter']
  simp [Option.any_eq_true]

theorem visit_filter (p : TypeAssertion → Bool) (b : Binding) (n : NodeId) :
    visit tree table (b.filter p) n = (visit tree table b n).filter p := by
  unfold visit
  simp only [filter, Std.ExtTreeMap.getElem?_filter']
  generalize table.lineIndex (tree.span n).start = line
  cases ht : b.pending[line]? with
  | none => rfl
  | some t =>
    -- An assertion that does not satisfy `p` is not pending on the left, and dropped on the right.
    have hpending (l : Nat) : ((b.pending.erase line).filter fun _ => p)[l]? =
        if line = l then none else b.pending[l]?.filter p := by
      rw [Std.ExtTreeMap.getElem?_filter', Std.ExtTreeMap.getElem?_erase]
      by_cases hl : line = l <;> simp [hl]
    cases hp : p t with
    | false =>
      simp only [Option.filter, hp, Bool.false_eq_true, if_false, List.filter_append,
        List.filter_cons, List.filter_nil, List.append_nil, Binding.mk.injEq, true_and]
      apply Std.ExtTreeMap.ext_getElem?
      intro l
      rw [hpending, Std.ExtTreeMap.getElem?_filter']
      by_cases hl : line = l
      · subst hl
        simp [ht, hp, Option.filter]
      · simp [hl]
    | true =>
      simp only [Option.filter, hp, if_true, List.filter_append, List.filter_cons, List.filter_nil,
        Binding.mk.injEq, true_and]
      apply Std.ExtTreeMap.ext_getElem?
      intro l
      rw [hpending, Std.ExtTreeMap.getElem?_erase, Std.ExtTreeMap.getElem?_filter']
      simp

theorem ofTree_filter (p : TypeAssertion → Bool) (pending : Std.ExtTreeMap Nat TypeAssertion) :
    ofTree tree table (pending.filter fun _ => p) = (ofTree tree table pending).filter p := by
  rw [ofTree_eq_foldl, ofTree_eq_foldl, ← List.foldl_hom (filter p) (visit_filter tree table p)]
  rfl

end Binding
end TypeComments
