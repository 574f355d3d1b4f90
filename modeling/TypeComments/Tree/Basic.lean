import TypeComments.Span

/-! Syntax trees as tables of nodes. A node is known by its number in the table; node 0 is the root.
Links between nodes may be made in any way, so that a table can also hold shared nodes, cycles, and
children that do not exist. A number outside the table names a node without extent and children. -/

namespace TypeComments

abbrev NodeId := Nat

namespace NodeId

/-- The number that never names a node. -/
def invalid : NodeId := 4294967295

def isValid (id : NodeId) : Bool := id != invalid

def describe (id : NodeId) : String :=
  if isValid id then "NodeId(" ++ Nat.repr id ++ ")" else "NodeId::INVALID"

end NodeId

/-- The forms of a statement that hand an assertion about its line to a node inside it. -/
inductive Shape
  | declaration (initializer : NodeId)
  | expressionStatement (expression : NodeId)
  | other
  deriving DecidableEq, Repr

structure Node where
  kind : String
  span : Span
  shape : Shape := .other
  children : List NodeId := []
  deriving DecidableEq, Repr

structure SyntaxTree where
  nodes : Array Node
  deriving DecidableEq, Repr

namespace SyntaxTree

def root : NodeId := 0

def ofSpan (span : Span) : SyntaxTree := ⟨#[⟨"File", span, .other, []⟩]⟩

def nodeCount (t : SyntaxTree) : Nat := t.nodes.size

def span (t : SyntaxTree) (n : NodeId) : Span := (t.nodes[n]?.map Node.span).getD Span.dummy

def children (t : SyntaxTree) (n : NodeId) : List NodeId := (t.nodes[n]?.map Node.children).getD []

def shape (t : SyntaxTree) (n : NodeId) : Shape := (t.nodes[n]?.map Node.shape).getD .other

def kind (t : SyntaxTree) (n : NodeId) : String := (t.nodes[n]?.map Node.kind).getD "<invalid>"

/-- Add a node that nothing is linked to; its number is the node count before. -/
def alloc (t : SyntaxTree) (kind : String) (span : Span) : SyntaxTree :=
  ⟨t.nodes.push ⟨kind, span, .other, []⟩⟩

/-- Make `child` the last child of `parent`, if there is such a parent. -/
def addChild (t : SyntaxTree) (parent child : NodeId) : SyntaxTree :=
  ⟨t.nodes.modify parent fun n => { n with children := n.children ++ [child] }⟩

def pushChild (t : SyntaxTree) (parent : NodeId) (kind : String) (span : Span) : SyntaxTree :=
  (t.alloc kind span).addChild parent t.nodeCount

def setShape (t : SyntaxTree) (n : NodeId) (shape : Shape) : SyntaxTree :=
  ⟨t.nodes.modify n fun node => { node with shape := shape }⟩

/-- The node whose type an assertion about the line of `n` speaks of. -/
def retarget (t : SyntaxTree) (n : NodeId) : NodeId :=
  match t.shape n with
  | .declaration initializer => initializer
  | .expressionStatement expression => expression
  | .other => n

@[simp] theorem nodeCount_alloc (t : SyntaxTree) (k : String) (s : Span) :
    (t.alloc k s).nodeCount = t.nodeCount + 1 := by
  simp [alloc, nodeCount]

@[simp] theorem nodeCount_addChild (t : SyntaxTree) (p c : NodeId) :
    (t.addChild p c).nodeCount = t.nodeCount := by
  simp [addChild, nodeCount]

@[simp] theorem nodeCount_pushChild (t : SyntaxTree) (p : NodeId) (k : String) (s : Span) :
    (t.pushChild p k s).nodeCount = t.nodeCount + 1 := by
  simp [pushChild]

@[simp] theorem nodeCount_setShape (t : SyntaxTree) (n : NodeId) (s : Shape) :
    (t.setShape n s).nodeCount = t.nodeCount := by
  simp [setShape, nodeCount]

theorem children_eq_nil_of_le {t : SyntaxTree} {n : NodeId} (h : t.nodeCount ≤ n) :
    t.children n = [] := by
  have : t.nodes[n]? = none := by simpa [nodeCount] using h
  simp [children, this]

theorem children_alloc (t : SyntaxTree) (k : String) (s : Span) (n : NodeId) :
    (t.alloc k s).children n = t.children n := by
  simp only [children, alloc, Array.getElem?_push]
  split
  · rename_i h
    subst h
    simp
  · rfl

theorem children_addChild (t : SyntaxTree) (p c n : NodeId) :
    (t.addChild p c).children n =
      if p = n ∧ n < t.nodeCount then t.children n ++ [c] else t.children n := by
  by_cases hn : n < t.nodeCount
  · have hsome : t.nodes[n]? = some (t.nodes[n]) := by simp [nodeCount] at hn; simp [hn]
    by_cases hp : p = n <;> simp [children, addChild, Array.getElem?_modify, hp, hn, hsome]
  · have hnone : t.nodes[n]? = none := by simpa [nodeCount] using hn
    simp [children, addChild, Array.getElem?_modify, hn, hnone]

theorem children_setShape (t : SyntaxTree) (m n : NodeId) (s : Shape) :
    (t.setShape m s).children n = t.children n := by
  by_cases h : m = n <;> cases hn : t.nodes[n]? <;>
    simp [children, setShape, Array.getElem?_modify, h, hn]

end SyntaxTree
end TypeComments
