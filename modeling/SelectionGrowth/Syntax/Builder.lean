import SelectionGrowth.Failure
import SelectionGrowth.Syntax.Tree

/-!
# Building syntax trees

A tree is built in document order by opening and closing nodes. The first node
opened is the root. Closing the builder checks that every node lies inside its
parent and after its previous sibling.

## Main definitions

- `BuildStep` — one call on a builder
- `Builder.openNode`, `Builder.closeNode` — open a node under the innermost open
  one, close the innermost open one
- `Builder.run` — a sequence of steps
- `Builder.finish` — the finished tree, or the first fault

## Design notes

Steps are accepted in any order. A node opened after the root was closed has no
parent; it stays in the arena and cannot be reached from the root. Closing with
nothing open does nothing.
-/

namespace SelectionGrowth

/-- One step of building a tree. -/
inductive BuildStep where
  | start (kind : Kind) (name : String) (start : Nat)
  | finish (stop : Nat)
  | token (kind : Kind) (name : String) (span : Span)
  | error
deriving DecidableEq

-- ════════════════════════════════════════════════════════════════════════
-- Arenas under construction
-- ════════════════════════════════════════════════════════════════════════

theorem nodeAt_eq_default {nodes : Array Node} {id : Nat} (h : nodes.size ≤ id) :
    nodeAt nodes id = default := by
  simp [nodeAt, Array.getD, Nat.not_lt.mpr h]

theorem nodeAt_push (nodes : Array Node) (n : Node) (id : Nat) :
    nodeAt (nodes.push n) id = if id = nodes.size then n else nodeAt nodes id := by
  simp only [nodeAt, Array.getD_eq_getD_getElem?, Array.getElem?_push]
  split <;> rfl

theorem nodeAt_modify (nodes : Array Node) (f : Node → Node) (at_ id : Nat) :
    nodeAt (nodes.modify at_ f) id =
      if id = at_ ∧ id < nodes.size then f (nodeAt nodes id) else nodeAt nodes id := by
  simp only [nodeAt, Array.getD_eq_getD_getElem?, Array.getElem?_modify]
  by_cases hsize : id < nodes.size
  · by_cases h : at_ = id
    · simp [h, hsize]
    · have h' : ¬ id = at_ := fun e => h e.symm
      simp [h, h']
  · simp [hsize]

theorem Linked.empty : Linked #[] where
  parent_lt id p h := by
    have : nodeAt #[] id = default := nodeAt_eq_default (Nat.zero_le id)
    rw [this] at h
    exact nomatch h
  child_lt id c h := by
    have : nodeAt #[] id = default := nodeAt_eq_default (Nat.zero_le id)
    rw [this] at h
    exact nomatch h

/-- The arena with a new last node, entered among the children of its parent. -/
def attachNode (nodes : Array Node) (parent : Option Nat) (kind : Kind) (name : String)
    (start : Nat) : Array Node :=
  let id := nodes.size
  let linked :=
    match parent with
    | none => nodes
    | some p => nodes.modify p fun n => { n with children := n.children ++ [id] }
  linked.push ⟨kind, name, Span.caret start, parent, []⟩

/-- The arena in which one node has its end set. -/
def closeSpan (nodes : Array Node) (id : Nat) (stop : Nat) : Array Node :=
  nodes.modify id fun n => { n with span := n.span.closeAt stop }

@[simp]
theorem size_attachNode (nodes : Array Node) (parent : Option Nat) (kind : Kind)
    (name : String) (start : Nat) :
    (attachNode nodes parent kind name start).size = nodes.size + 1 := by
  cases parent <;> simp [attachNode]

@[simp]
theorem size_closeSpan (nodes : Array Node) (id : Nat) (stop : Nat) :
    (closeSpan nodes id stop).size = nodes.size := by
  simp [closeSpan]

/-- A node of the extended arena is the new node, its parent with one more child, or unchanged. -/
theorem nodeAt_attachNode (nodes : Array Node) (parent : Option Nat) (kind : Kind)
    (name : String) (start : Nat) (id : Nat) :
    nodeAt (attachNode nodes parent kind name start) id =
      if id = nodes.size then ⟨kind, name, Span.caret start, parent, []⟩
      else if parent = some id ∧ id < nodes.size then
        { nodeAt nodes id with children := (nodeAt nodes id).children ++ [nodes.size] }
      else nodeAt nodes id := by
  cases parent with
  | none => simp [attachNode, nodeAt_push]
  | some p =>
    simp only [attachNode, nodeAt_push, Array.size_modify, nodeAt_modify]
    by_cases hid : id = nodes.size
    · simp [hid]
    · by_cases hp : id = p
      · simp [hp]
      · have hp' : ¬ p = id := fun e => hp e.symm
        simp [hid, hp, hp']

theorem nodeAt_closeSpan (nodes : Array Node) (at_ : Nat) (stop : Nat) (id : Nat) :
    nodeAt (closeSpan nodes at_ stop) id =
      if id = at_ ∧ id < nodes.size then
        { nodeAt nodes id with span := (nodeAt nodes id).span.closeAt stop }
      else nodeAt nodes id :=
  nodeAt_modify nodes _ at_ id

/-- Opening a node under an earlier one keeps the links in order. -/
theorem Linked.attachNode {nodes : Array Node} (h : Linked nodes) {parent : Option Nat}
    (hparent : ∀ p, parent = some p → p < nodes.size) (kind : Kind) (name : String)
    (start : Nat) : Linked (attachNode nodes parent kind name start) where
  parent_lt id p hp := by
    rw [nodeAt_attachNode] at hp
    split at hp
    · next hid => exact hid ▸ hparent p hp
    · split at hp <;> exact h.parent_lt id p hp
  child_lt id c hc := by
    rw [nodeAt_attachNode] at hc
    rw [size_attachNode]
    split at hc
    · exact nomatch hc
    · split at hc
      · next hcond =>
        rcases List.mem_append.1 hc with hold | hnew
        · have := h.child_lt id c hold
          omega
        · have : c = nodes.size := by simpa using hnew
          omega
      · have := h.child_lt id c hc
        omega

theorem Linked.closeSpan {nodes : Array Node} (h : Linked nodes) (at_ : Nat) (stop : Nat) :
    Linked (closeSpan nodes at_ stop) where
  parent_lt id p hp := by
    rw [nodeAt_closeSpan] at hp
    split at hp <;> exact h.parent_lt id p hp
  child_lt id c hc := by
    rw [nodeAt_closeSpan] at hc
    rw [size_closeSpan]
    split at hc <;> exact h.child_lt id c hc

-- ════════════════════════════════════════════════════════════════════════
-- Builders
-- ════════════════════════════════════════════════════════════════════════

/-- An arena under construction, with its open nodes, the innermost first. -/
structure Builder where
  nodes : Array Node
  stack : List Nat
  revision : Int
  hasError : Bool
  linked : Linked nodes
  stack_lt : ∀ id ∈ stack, id < nodes.size

namespace Builder

/-- A builder for a tree of a given revision, before its first step. -/
def new (revision : Int) : Builder where
  nodes := #[]
  stack := []
  revision := revision
  hasError := false
  linked := Linked.empty
  stack_lt := by simp

/-- Opens a node under the innermost open one. -/
def openNode (b : Builder) (kind : Kind) (name : String) (start : Nat) : Builder where
  nodes := attachNode b.nodes b.stack.head? kind name start
  stack := b.nodes.size :: b.stack
  revision := b.revision
  hasError := b.hasError
  linked := b.linked.attachNode (fun p hp => b.stack_lt p (List.mem_of_head? hp)) kind name start
  stack_lt := by
    intro id hid
    rw [size_attachNode]
    rcases List.mem_cons.1 hid with rfl | hmem
    · omega
    · have := b.stack_lt id hmem
      omega

/-- Closes the innermost open node; its end is never before its start. -/
def closeNode (b : Builder) (stop : Nat) : Builder :=
  match h : b.stack with
  | [] => b
  | id :: rest =>
    { nodes := closeSpan b.nodes id stop
      stack := rest
      revision := b.revision
      hasError := b.hasError
      linked := b.linked.closeSpan id stop
      stack_lt := by
        intro other hmem
        rw [size_closeSpan]
        exact b.stack_lt other (h ▸ List.mem_cons_of_mem id hmem) }

/-- One step. A token is a node that is closed at once. -/
def step (b : Builder) : BuildStep → Builder
  | .start kind name start => b.openNode kind name start
  | .finish stop => b.closeNode stop
  | .token kind name span => (b.openNode kind name span.start).closeNode span.stop
  | .error => { b with hasError := true }

def run (b : Builder) (steps : List BuildStep) : Builder :=
  steps.foldl step b

/--
The first fault among the children of a node: one that is not inside the node,
or one that starts before the end of its previous sibling.
-/
def childFault? (nodes : Array Node) (parent : Node) :
    (previousStop : Nat) → List Nat → Option ParseFault
  | _, [] => none
  | previousStop, id :: rest =>
    let child := nodeAt nodes id
    if ¬ parent.span.Contains child.span then
      some (.escapesParent child.name child.span parent.name parent.span)
    else if child.span.start < previousStop then
      some (.overlapsSibling child.name child.span)
    else childFault? nodes parent child.span.stop rest

/-- The first fault among the children of all nodes, in the order of the arena. -/
def nestingFault? (nodes : Array Node) : Option ParseFault :=
  nodes.toList.findSome? fun n => childFault? nodes n n.span.start n.children

/-- The finished tree, or the first fault. -/
def finish (b : Builder) : Except Failure SyntaxTree :=
  if hsize : b.nodes.size = 0 then .error (.unparseable .noRoot)
  else if b.stack.length ≠ 0 then .error (.unparseable (.leftOpen b.stack.length))
  else if (nodeAt b.nodes 0).span.start ≠ 0 then .error (.unparseable .rootNotAtStart)
  else
    match nestingFault? b.nodes with
    | some fault => .error (.unparseable fault)
    | none => .ok ⟨b.nodes, b.revision, b.hasError, b.linked, Nat.pos_of_ne_zero hsize⟩

end Builder

def SyntaxTree.build (revision : Int) (steps : List BuildStep) : Except Failure SyntaxTree :=
  ((Builder.new revision).run steps).finish

end SelectionGrowth
