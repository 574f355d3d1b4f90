import TypeComments.Proofs.Binding
import TypeComments.Proofs.Tree.PreOrder

/-! Binding as a whole, for trees without cycles, whose nodes may be shared and may not exist. The
walk ends, and with the same result if it did not stop when nothing is left to bind. Every assertion
is then bound or pending: bound to the first node of its line in pre-order, in the order of those
nodes, or pending because there is none. -/

namespace TypeComments

/-- An assertion about the line of `n` speaks of `m`: the initializer of a declaration, the
expression of a statement, and else the node itself. -/
inductive SyntaxTree.StandsFor (t : SyntaxTree) (n : NodeId) : NodeId → Prop
  | initializer {m : NodeId} : t.shape n = .declaration m → StandsFor t n m
  | expression {m : NodeId} : t.shape n = .expressionStatement m → StandsFor t n m
  | itself : t.shape n = .other → StandsFor t n n

theorem SyntaxTree.standsFor_retarget (t : SyntaxTree) (n : NodeId) :
    t.StandsFor n (t.retarget n) := by
  rw [retarget]
  cases hshape : t.shape n with
  | declaration m => exact .initializer hshape
  | expressionStatement m => exact .expression hshape
  | other => exact .itself hshape

namespace Binding

variable (tree : SyntaxTree) (table : LineTable)

/-- The place of the first node of a listing that starts on a line. -/
def firstPlace (ns : List NodeId) (line : Nat) : Nat :=
  ns.findIdx fun n => lineOf tree table n = line

/-- What binding has to leave of the assertions `pending`; `ns` lists the nodes below the root. -/
structure BindsFirst (pending : Std.ExtTreeMap Nat TypeAssertion) (ns : List NodeId)
    (b : Binding) : Prop where
  ends : ∀ b', tree.Walks (fun b => b.pending.isEmpty) (visit tree table)
    (tree.children SyntaxTree.root) ⟨[], pending⟩ b' ↔ b' = b
  ends_unstopped : ∀ b', tree.Walks (fun _ => false) (visit tree table)
    (tree.children SyntaxTree.root) ⟨[], pending⟩ b' ↔ b' = b
  lines : ∀ line, line ∈ pending ↔ line ∈ b.pending ∨ ∃ x ∈ b.bound, x.line = line
  disjoint : ∀ x ∈ b.bound, x.line ∉ b.pending
  once : b.bound.Pairwise fun x y => x.line ≠ y.line
  assertion : ∀ x ∈ b.bound, pending[x.line]? = some x.assertion
  pending_unchanged : ∀ line ∈ b.pending, b.pending[line]? = pending[line]?
  bound_iff : ∀ line ∈ pending, (∃ x ∈ b.bound, x.line = line) ↔
    ∃ n, Relation.TransGen tree.IsChild SyntaxTree.root n ∧ lineOf tree table n = line
  node : ∀ x ∈ b.bound, ∃ n, ns.find? (fun n => lineOf tree table n = x.line) = some n ∧
    tree.StandsFor n x.node
  order : b.bound.Pairwise fun x y =>
    firstPlace tree table ns x.line < firstPlace tree table ns y.line
  mem_orphans : ∀ line, line ∈ b.orphanLines ↔ line ∈ b.pending
  orphans_ascending : b.orphanLines.Pairwise (· < ·)

section Order

variable {tree table} {pending : Std.ExtTreeMap Nat TypeAssertion} {ns : List NodeId}

theorem firstPlace_lt_of_mem {x : Bound}
    (h : x ∈ (ns.foldl (visit tree table) ⟨[], pending⟩).bound) :
    firstPlace tree table ns x.line < ns.length := by
  have hmem : x ∈ (ns.foldl (visit tree table) ⟨[], pending⟩).bound.filter (·.line = x.line) := by
    simp [h]
  rw [boundOn_foldl, List.filter_nil, List.nil_append, Option.mem_toList,
    Option.bind_eq_some_iff] at hmem
  obtain ⟨n, hn, -⟩ := hmem
  have hline : decide (lineOf tree table n = x.line) = true :=
    List.find?_some (p := fun n => decide (lineOf tree table n = x.line)) hn
  exact List.findIdx_lt_length_of_exists ⟨n, List.mem_of_find?_eq_some hn, hline⟩

theorem firstPlace_eq_length {line : Nat} {t : TypeAssertion}
    (h : (ns.foldl (visit tree table) ⟨[], pending⟩).pending[line]? = some t) :
    firstPlace tree table ns line = ns.length := by
  rw [pending_foldl] at h
  split at h
  · cases h
  · rename_i hnone
    rw [firstPlace, List.findIdx_eq_length]
    simpa using hnone

theorem firstPlace_append_of_lt {line : Nat} (h : firstPlace tree table ns line < ns.length)
    (n : NodeId) : firstPlace tree table (ns ++ [n]) line = firstPlace tree table ns line := by
  rw [firstPlace, List.findIdx_append]
  exact if_pos h

theorem firstPlace_append_of_eq {n : NodeId}
    (h : firstPlace tree table ns (lineOf tree table n) = ns.length) :
    firstPlace tree table (ns ++ [n]) (lineOf tree table n) = ns.length := by
  have hnot : ¬ firstPlace tree table ns (lineOf tree table n) < ns.length := by omega
  rw [firstPlace, List.findIdx_append, ← firstPlace, if_neg hnot]
  simp [List.findIdx_cons]

variable (tree table pending ns)

/-- Each visit binds at most one assertion, behind those bound before, and of a line that none of
the nodes before starts on. -/
theorem bound_foldl_ordered :
    (ns.foldl (visit tree table) ⟨[], pending⟩).bound.Pairwise fun x y =>
      firstPlace tree table ns x.line < firstPlace tree table ns y.line := by
  induction ns using List.reverseRecOn with
  | nil => exact List.Pairwise.nil
  | append_singleton ns n ih =>
    have hkept : (ns.foldl (visit tree table) ⟨[], pending⟩).bound.Pairwise fun x y =>
        firstPlace tree table (ns ++ [n]) x.line < firstPlace tree table (ns ++ [n]) y.line := by
      refine ih.imp_of_mem ?_
      intro x y hx hy hlt
      rwa [firstPlace_append_of_lt (firstPlace_lt_of_mem hx),
        firstPlace_append_of_lt (firstPlace_lt_of_mem hy)]
    rw [List.foldl_append, List.foldl_cons, List.foldl_nil]
    generalize hb : ns.foldl (visit tree table) ⟨[], pending⟩ = b at hkept
    cases ht : b.pending[lineOf tree table n]? with
    | none =>
      rw [visit_of_none ht]
      exact hkept
    | some t =>
      have hnew : firstPlace tree table ns (lineOf tree table n) = ns.length := by
        apply firstPlace_eq_length
        rw [hb]
        exact ht
      rw [visit_of_some ht, List.pairwise_append]
      refine ⟨hkept, List.pairwise_singleton _ _, ?_⟩
      intro x hx y hy
      obtain rfl := List.mem_singleton.1 hy
      rw [← hb] at hx
      have hlt := firstPlace_lt_of_mem hx
      rw [firstPlace_append_of_lt hlt, firstPlace_append_of_eq hnew]
      exact hlt

end Order

theorem ofTree_eq_walkBelow (pending : Std.ExtTreeMap Nat TypeAssertion) :
    ofTree tree table pending = tree.walkBelow (fun _ => false) (visit tree table) tree.nodeCount
      SyntaxTree.root ⟨[], pending⟩ := by
  rw [ofTree_eq_foldl, SyntaxTree.walkBelow_eq_foldl, SyntaxTree.descendants]
  rfl

theorem exists_bound_iff (pending : Std.ExtTreeMap Nat TypeAssertion) (line : Nat) :
    (∃ x ∈ (ofTree tree table pending).bound, x.line = line) ↔
      line ∈ pending ∧ ∃ n ∈ tree.descendants SyntaxTree.root, lineOf tree table n = line := by
  have hfind : (∃ n ∈ tree.descendants SyntaxTree.root, lineOf tree table n = line) ↔
      ∃ n, (tree.descendants SyntaxTree.root).find? (fun n => lineOf tree table n = line) =
        some n := by
    rw [← Option.isSome_iff_exists, List.isSome_find?]
    simp
  rw [hfind, Std.ExtTreeMap.mem_iff_isSome_getElem?, Option.isSome_iff_exists]
  simp only [mem_bound_ofTree]
  constructor
  · rintro ⟨x, ⟨n, hn, -, hassertion⟩, rfl⟩
    exact ⟨⟨x.assertion, hassertion⟩, n, hn⟩
  · rintro ⟨⟨t, ht⟩, n, hn⟩
    exact ⟨⟨line, tree.retarget n, t⟩, ⟨n, hn, rfl, ht⟩, rfl⟩

theorem mem_pending_ofTree (pending : Std.ExtTreeMap Nat TypeAssertion) (line : Nat) :
    line ∈ (ofTree tree table pending).pending ↔
      line ∈ pending ∧ ¬ ∃ n ∈ tree.descendants SyntaxTree.root, lineOf tree table n = line := by
  rw [Std.ExtTreeMap.mem_iff_isSome_getElem?, pending_ofTree,
    Std.ExtTreeMap.mem_iff_isSome_getElem?]
  by_cases hnode : ∃ n ∈ tree.descendants SyntaxTree.root, lineOf tree table n = line
  · simp [hnode]
  · simp [hnode]

variable {tree}

theorem walks_ofTree (ht : tree.Acyclic) (pending : Std.ExtTreeMap Nat TypeAssertion) :
    tree.Walks (fun b => b.pending.isEmpty) (visit tree table) (tree.children SyntaxTree.root)
      ⟨[], pending⟩ (ofTree tree table pending) :=
  SyntaxTree.walks_walkBelow ht _ _ Relation.ReflTransGen.refl (tree.reach_le _) _

theorem walks_unstopped_ofTree (ht : tree.Acyclic) (pending : Std.ExtTreeMap Nat TypeAssertion) :
    tree.Walks (fun _ => false) (visit tree table) (tree.children SyntaxTree.root)
      ⟨[], pending⟩ (ofTree tree table pending) := by
  rw [ofTree_eq_walkBelow]
  exact SyntaxTree.walks_walkBelow ht _ _ Relation.ReflTransGen.refl (tree.reach_le _) _

/-- Binding takes the first node of every line, and loses nothing. -/
theorem ofTree_bindsFirst (ht : tree.Acyclic) (pending : Std.ExtTreeMap Nat TypeAssertion) :
    ∃ ns, tree.PreOrder (tree.children SyntaxTree.root) ns ∧
      BindsFirst tree table pending ns (ofTree tree table pending) := by
  refine ⟨tree.descendants SyntaxTree.root, SyntaxTree.preOrder_descendants ht, ?_⟩
  have hbound := exists_bound_iff tree table pending
  have hpending := mem_pending_ofTree tree table pending
  constructor
  case ends =>
    intro b'
    exact ⟨fun h => h.unique (walks_ofTree table ht pending),
      fun h => h ▸ walks_ofTree table ht pending⟩
  case ends_unstopped =>
    intro b'
    exact ⟨fun h => h.unique (walks_unstopped_ofTree table ht pending),
      fun h => h ▸ walks_unstopped_ofTree table ht pending⟩
  case lines =>
    intro line
    rw [hbound, hpending]
    tauto
  case disjoint =>
    intro x hx hmem
    exact ((hpending x.line).1 hmem).2 ((hbound x.line).1 ⟨x, hx, rfl⟩).2
  case once => exact bound_ofTree_pairwise tree table pending
  case assertion =>
    intro x hx
    obtain ⟨n, -, -, hassertion⟩ := (mem_bound_ofTree tree table pending x).1 hx
    exact hassertion
  case pending_unchanged =>
    intro line hline
    have hnode : ¬ (tree.descendants SyntaxTree.root).any
        (fun n => lineOf tree table n = line) = true := by
      simpa using ((hpending line).1 hline).2
    rw [pending_ofTree, if_neg hnode]
  case bound_iff =>
    intro line hline
    rw [hbound]
    simp only [hline, true_and, SyntaxTree.mem_descendants_root_iff ht]
  case node =>
    intro x hx
    obtain ⟨n, hn, hnode, -⟩ := (mem_bound_ofTree tree table pending x).1 hx
    exact ⟨n, hn, hnode ▸ tree.standsFor_retarget n⟩
  case order =>
    rw [ofTree_eq_foldl]
    exact bound_foldl_ordered tree table pending _
  case mem_orphans => exact fun line => mem_orphanLines
  case orphans_ascending => exact orphanLines_pairwise _

def sharingTree : SyntaxTree :=
  ⟨#[⟨"File", ⟨0, 11⟩, .other, [1, 2]⟩, ⟨"Variable", ⟨6, 8⟩, .declaration 3, [3]⟩,
    ⟨"Statement", ⟨9, 11⟩, .expressionStatement 4, [3, 4]⟩, ⟨"Call", ⟨3, 8⟩, .other, [9]⟩,
    ⟨"Name", ⟨9, 11⟩, .other, []⟩]⟩

def fiveAssertions : Std.ExtTreeMap Nat TypeAssertion :=
  .ofList ([(0, .manual "A".toList), (1, .manual "B".toList), (2, .manual "C".toList),
    (3, .snapshot "s".toList none), (7, .manual "D".toList)] : List (Nat × TypeAssertion))

theorem sharingTree_bound :
    sharingTree.Acyclic ∧
    (ofTree sharingTree (.ofText "aa\nbb\ncc\ndd".toList) fiveAssertions).bound.map
      (fun x => (x.line, x.node)) = [(2, 3), (1, 3), (0, 9), (3, 4)] ∧
    (ofTree sharingTree (.ofText "aa\nbb\ncc\ndd".toList) fiveAssertions).orphanLines = [7] ∧
    ∃ ns, sharingTree.PreOrder (sharingTree.children SyntaxTree.root) ns ∧
      BindsFirst sharingTree (.ofText "aa\nbb\ncc\ndd".toList) fiveAssertions ns
        (ofTree sharingTree (.ofText "aa\nbb\ncc\ndd".toList) fiveAssertions) := by
  have hacyclic : sharingTree.Acyclic := SyntaxTree.acyclic_of_lt (by decide)
  exact ⟨hacyclic, by decide +kernel, by decide +kernel,
    ofTree_bindsFirst (.ofText "aa\nbb\ncc\ndd".toList) hacyclic fiveAssertions⟩

end Binding
end TypeComments
