import TypeComments.Assertion.Basic
import TypeComments.LineTable
import TypeComments.Tree.Walk

/-! Type assertions meet the tree. An assertion about a line belongs to the first node, in pre-order
and below the root, that starts on the line. Assertions for whose line there is no node stay
pending. -/

namespace TypeComments

/-- An assertion and the node whose type it speaks of. -/
structure Bound where
  line : Nat
  node : NodeId
  assertion : TypeAssertion
  deriving DecidableEq, Repr

structure Binding where
  bound : List Bound
  pending : Std.ExtTreeMap Nat TypeAssertion

namespace Binding

def visit (tree : SyntaxTree) (table : LineTable) (b : Binding) (n : NodeId) : Binding :=
  let line := table.lineIndex (tree.span n).start
  match b.pending[line]? with
  | some assertion => ⟨b.bound ++ [⟨line, tree.retarget n, assertion⟩], b.pending.erase line⟩
  | none => b

/-- Bind assertions to the nodes of a tree. The walk ends when nothing is left to bind. -/
def ofTree (tree : SyntaxTree) (table : LineTable) (pending : Std.ExtTreeMap Nat TypeAssertion) :
    Binding :=
  tree.walkBelow (fun b => b.pending.isEmpty) (visit tree table) tree.nodeCount SyntaxTree.root
    ⟨[], pending⟩

def orphanLines (b : Binding) : List Nat := b.pending.keys

theorem orphanLines_pairwise (b : Binding) : b.orphanLines.Pairwise (· < ·) := by
  have := Std.ExtTreeMap.ordered_keys (t := b.pending)
  exact this.imp fun h => Nat.compare_eq_lt.1 h

theorem mem_orphanLines {b : Binding} {line : Nat} : line ∈ b.orphanLines ↔ line ∈ b.pending :=
  Std.ExtTreeMap.mem_keys

end Binding
end TypeComments
