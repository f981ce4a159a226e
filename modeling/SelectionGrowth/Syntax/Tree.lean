import SelectionGrowth.Span
import SelectionGrowth.Syntax.Kind

/-!
# Syntax trees

The nodes of a syntax tree lie in one array, numbered in the order in which they
were opened, and refer to each other by that number. A node comes after its
parent and before its children, so walks in either direction end.

## Main definitions

- `Node` — a node with links to its parent and its children
- `Linked` — links go from parents to later nodes and from children to earlier ones
- `SyntaxTree` — a linked, nonempty arena for one revision of a document
- `SyntaxTree.ancestors` — the nodes above a node, innermost first
- `SyntaxTree.preorder` — the nodes below a node, itself first
-/

namespace SelectionGrowth

/-- A syntax node. -/
structure Node where
  kind : Kind
  name : String
  span : Span
  parent : Option Nat
  children : List Nat
deriving DecidableEq

/-- The node that an index outside the arena names: it has no relatives. -/
instance : Inhabited Node :=
  ⟨⟨.other, "", Span.caret 0, none, []⟩⟩

def Node.render (n : Node) : String :=
  n.kind.name ++ "(" ++ n.name ++ ") @ " ++ n.span.render

/-- The node at an index. -/
def nodeAt (nodes : Array Node) (id : Nat) : Node :=
  nodes.getD id default

/-- Parents stand before their children, and children lie inside the arena. -/
structure Linked (nodes : Array Node) : Prop where
  parent_lt : ∀ id p, (nodeAt nodes id).parent = some p → p < id
  child_lt : ∀ id c, c ∈ (nodeAt nodes id).children → id < c ∧ c < nodes.size

/-- A syntax tree for one revision of a document. Node zero is its root. -/
structure SyntaxTree where
  nodes : Array Node
  revision : Int
  hasError : Bool
  linked : Linked nodes
  nonempty : 0 < nodes.size

namespace SyntaxTree

def rootId : Nat := 0

def node (t : SyntaxTree) (id : Nat) : Node :=
  nodeAt t.nodes id

def root (t : SyntaxTree) : Node :=
  t.node rootId

def span (t : SyntaxTree) (id : Nat) : Span :=
  (t.node id).span

/-- The length of the text that the tree covers. -/
def length (t : SyntaxTree) : Nat :=
  t.root.span.stop

def nodeCount (t : SyntaxTree) : Nat :=
  t.nodes.size

/-- The nodes above a node, its parent first. -/
def ancestors (t : SyntaxTree) (id : Nat) : List Nat :=
  match h : (t.node id).parent with
  | none => []
  | some p =>
    have := t.linked.parent_lt id p h
    p :: t.ancestors p
termination_by id

/-- The nodes at or below a node, each before the nodes below it. -/
def preorder (t : SyntaxTree) (id : Nat) : List Nat :=
  id :: (t.node id).children.attach.flatMap fun child =>
    have := t.linked.child_lt id child.val child.property
    t.preorder child.val
termination_by t.nodes.size - id

end SyntaxTree

end SelectionGrowth
