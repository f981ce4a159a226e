import Mathlib.Data.List.Chain
import SelectionGrowth.Syntax.Builder

/-!
# Nesting of finished trees

A builder accepts its steps in any order, and closing it compares each node only
with its parent and its previous sibling. This file carries these local facts
through a whole build and up the ancestors of a node.

## Main definitions

- `Paired` — parents and children name each other
- `EndsBefore` — one node ends before another starts
- `Builder.Accepted` — what closing a builder asks for
- `SyntaxTree.Nested` — a paired tree whose nodes contain their children
- `SyntaxTree.Reachable` — the nodes that a walk from the root can meet

## Main statements

- `Builder.nestingFault?_eq_none_iff` — what the check of a builder amounts to
- `Builder.finish_cases` — what closing a builder hands over
- `SyntaxTree.nested_of_build` — every tree that a builder finishes is nested
- `SyntaxTree.Nested.root_mem_ancestors` — every way up from a reachable node ends at the root
- `SyntaxTree.Nested.contains_of_mem_ancestors` — an ancestor contains what lies below it
-/

namespace SelectionGrowth

/-- A result that was made from another one. -/
theorem exists_of_map_eq_ok {ε α β : Type} {f : α → β} {x : Except ε α} {b : β}
    (h : x.map f = .ok b) : ∃ a, x = .ok a ∧ f a = b := by
  cases x with
  | error e => exact nomatch h
  | ok a => exact ⟨a, rfl, Except.ok.inj h⟩

/-- One node ends where another starts, or before that. -/
def EndsBefore (nodes : Array Node) (a b : Nat) : Prop :=
  (nodeAt nodes a).span.stop ≤ (nodeAt nodes b).span.start

/-- A node is among the children of another exactly when it names that one as its parent. -/
def Paired (nodes : Array Node) : Prop :=
  ∀ p c, c ∈ (nodeAt nodes p).children ↔ (nodeAt nodes c).parent = some p

-- ════════════════════════════════════════════════════════════════════════
-- Links of arenas under construction
-- ════════════════════════════════════════════════════════════════════════

theorem Paired.empty : Paired #[] := by
  intro p c
  have hnode : ∀ id, nodeAt #[] id = default := fun id => nodeAt_eq_default (Nat.zero_le id)
  rw [hnode, hnode]
  exact ⟨fun h => absurd h List.not_mem_nil, fun h => nomatch h⟩

/-- Only nodes of the arena have a parent. -/
theorem lt_size_of_parent {nodes : Array Node} {c p : Nat}
    (h : (nodeAt nodes c).parent = some p) : c < nodes.size := by
  by_contra hc
  rw [nodeAt_eq_default (Nat.le_of_not_lt hc)] at h
  exact nomatch h

theorem Linked.parent_ne_size {nodes : Array Node} (h : Linked nodes) (id : Nat) :
    (nodeAt nodes id).parent ≠ some nodes.size := by
  intro hparent
  have hlt := h.parent_lt id nodes.size hparent
  exact Nat.lt_asymm hlt (lt_size_of_parent hparent)

/-- Opening a node enters it at both ends of its new link. -/
theorem Paired.attachNode {nodes : Array Node} (h : Paired nodes) (hlinked : Linked nodes)
    {parent : Option Nat} (hparent : ∀ p, parent = some p → p < nodes.size) (kind : Kind)
    (name : String) (start : Nat) : Paired (attachNode nodes parent kind name start) := by
  intro p c
  rw [nodeAt_attachNode, nodeAt_attachNode]
  by_cases hc : c = nodes.size
  · -- the new node: only its parent lists it
    rw [if_pos hc]
    have hfresh : ∀ id, c ∉ (nodeAt nodes id).children := by
      intro id hmem
      have := hlinked.child_lt id c hmem
      omega
    by_cases hp : p = nodes.size
    · rw [if_pos hp]
      refine ⟨fun hmem => absurd hmem List.not_mem_nil, fun heq => ?_⟩
      have := hparent p heq
      omega
    · rw [if_neg hp]
      split
      · next hcond => simp [hc, hcond.1]
      · next hcond =>
        refine ⟨fun hmem => absurd hmem (hfresh p), fun heq => ?_⟩
        exact absurd ⟨heq, hparent p heq⟩ hcond
  · -- an older node: its parent may have gained another child
    rw [if_neg hc]
    have hold : (if parent = some c ∧ c < nodes.size then
        { nodeAt nodes c with children := (nodeAt nodes c).children ++ [nodes.size] }
        else nodeAt nodes c).parent = (nodeAt nodes c).parent := by
      split <;> rfl
    rw [hold]
    by_cases hp : p = nodes.size
    · rw [if_pos hp, hp]
      exact ⟨fun hmem => absurd hmem List.not_mem_nil,
        fun heq => absurd heq (hlinked.parent_ne_size c)⟩
    · rw [if_neg hp, ← h p c]
      split
      · simp [hc]
      · rfl

@[simp]
theorem parent_closeSpan (nodes : Array Node) (at_ stop id : Nat) :
    (nodeAt (closeSpan nodes at_ stop) id).parent = (nodeAt nodes id).parent := by
  rw [nodeAt_closeSpan]
  split <;> rfl

@[simp]
theorem children_closeSpan (nodes : Array Node) (at_ stop id : Nat) :
    (nodeAt (closeSpan nodes at_ stop) id).children = (nodeAt nodes id).children := by
  rw [nodeAt_closeSpan]
  split <;> rfl

theorem Paired.closeSpan {nodes : Array Node} (h : Paired nodes) (at_ stop : Nat) :
    Paired (closeSpan nodes at_ stop) := by
  intro p c
  rw [children_closeSpan, parent_closeSpan]
  exact h p c

-- ════════════════════════════════════════════════════════════════════════
-- Runs of a builder
-- ════════════════════════════════════════════════════════════════════════

namespace Builder

/-- A property that opening, closing and marking keep holds after every run. -/
theorem run_of_invariant {P : Builder → Prop}
    (hopen : ∀ b kind name start, P b → P (b.openNode kind name start))
    (hclose : ∀ b stop, P b → P (b.closeNode stop))
    (herror : ∀ b, P b → P { b with hasError := true })
    {b : Builder} (h : P b) (steps : List BuildStep) : P (b.run steps) := by
  induction steps generalizing b with
  | nil => exact h
  | cons buildStep rest ih =>
    refine ih ?_
    cases buildStep with
    | start kind name start => exact hopen b kind name start h
    | finish stop => exact hclose b stop h
    | token kind name span => exact hclose _ _ (hopen b kind name span.start h)
    | error => exact herror b h

@[simp]
theorem size_openNode (b : Builder) (kind : Kind) (name : String) (start : Nat) :
    (b.openNode kind name start).nodes.size = b.nodes.size + 1 :=
  size_attachNode _ _ _ _ _

theorem nodeAt_openNode_self (b : Builder) (kind : Kind) (name : String) (start : Nat) :
    nodeAt (b.openNode kind name start).nodes b.nodes.size =
      ⟨kind, name, Span.caret start, b.stack.head?, []⟩ :=
  (nodeAt_attachNode _ _ _ _ _ _).trans (if_pos rfl)

/-- Opening a node changes no more of the others than their children. -/
theorem exists_nodeAt_openNode (b : Builder) (kind : Kind) (name : String) (start id : Nat)
    (hne : id ≠ b.nodes.size) : ∃ children,
      nodeAt (b.openNode kind name start).nodes id = { nodeAt b.nodes id with children } := by
  have hnode := nodeAt_attachNode b.nodes b.stack.head? kind name start id
  rw [if_neg hne] at hnode
  split at hnode
  · exact ⟨_, hnode⟩
  · exact ⟨(nodeAt b.nodes id).children, hnode⟩

theorem stack_closeNode (b : Builder) (stop : Nat) : (b.closeNode stop).stack = b.stack.tail := by
  unfold closeNode
  split
  · next hstack => rw [hstack]; rfl
  · next rest hstack =>
    show rest = b.stack.tail
    rw [hstack]
    rfl

theorem nodes_closeNode {b : Builder} {id : Nat} {rest : List Nat} (h : b.stack = id :: rest)
    (stop : Nat) : (b.closeNode stop).nodes = closeSpan b.nodes id stop := by
  unfold closeNode
  split
  · next hstack => exact nomatch h.symm.trans hstack
  · next hstack =>
    cases h.symm.trans hstack
    rfl

theorem paired_openNode {b : Builder} (h : Paired b.nodes) (kind : Kind) (name : String)
    (start : Nat) : Paired (b.openNode kind name start).nodes :=
  h.attachNode b.linked (fun p hp => b.stack_lt p (List.mem_of_head? hp)) kind name start

theorem paired_closeNode {b : Builder} (h : Paired b.nodes) (stop : Nat) :
    Paired (b.closeNode stop).nodes := by
  unfold closeNode
  split
  · exact h
  · exact h.closeSpan _ _

theorem paired_run (revision : Int) (steps : List BuildStep) :
    Paired ((new revision).run steps).nodes :=
  run_of_invariant (P := fun b => Paired b.nodes)
    (fun _ kind name start h => paired_openNode h kind name start)
    (fun _ stop h => paired_closeNode h stop) (fun _ h => h) Paired.empty steps

/-- The children of a node pass if they lie in it and each ends before the next one starts. -/
theorem childFault?_eq_none_iff {nodes : Array Node} {parent : Node} {previousStop : Nat}
    {children : List Nat} : childFault? nodes parent previousStop children = none ↔
      (∀ c ∈ children, parent.span.Contains (nodeAt nodes c).span) ∧
      (∀ c ∈ children.head?, previousStop ≤ (nodeAt nodes c).span.start) ∧
      children.IsChain (EndsBefore nodes) := by
  induction children generalizing previousStop with
  | nil => simp [childFault?]
  | cons id rest ih =>
    simp only [childFault?]
    split
    · next hescapes =>
      refine ⟨fun h => (nomatch h), fun h => ?_⟩
      exact absurd (h.1 id List.mem_cons_self) hescapes
    · next hinside =>
      split
      · next hoverlaps =>
        refine ⟨fun h => (nomatch h), fun h => ?_⟩
        exact absurd hoverlaps (Nat.not_lt.2 (h.2.1 id rfl))
      · next hafter =>
        rw [ih, List.isChain_cons]
        have hcontains := Decidable.not_not.1 hinside
        have hstart := Nat.le_of_not_lt hafter
        simp only [List.forall_mem_cons, List.head?_cons, Option.mem_some_iff, forall_eq']
        exact ⟨fun ⟨hin, hfirst, hchain⟩ => ⟨⟨hcontains, hin⟩, hstart, hfirst, hchain⟩,
          fun ⟨⟨_, hin⟩, _, hfirst, hchain⟩ => ⟨hin, hfirst, hchain⟩⟩

/-- An arena passes if the children of every node pass. -/
theorem nestingFault?_eq_none_iff {nodes : Array Node} : nestingFault? nodes = none ↔
    ∀ p, (∀ c ∈ (nodeAt nodes p).children,
        (nodeAt nodes p).span.Contains (nodeAt nodes c).span) ∧
      (nodeAt nodes p).children.IsChain (EndsBefore nodes) := by
  have hnode : ∀ n : Node, childFault? nodes n n.span.start n.children = none ↔
      (∀ c ∈ n.children, n.span.Contains (nodeAt nodes c).span) ∧
        n.children.IsChain (EndsBefore nodes) := by
    intro n
    rw [childFault?_eq_none_iff]
    refine ⟨fun h => ⟨h.1, h.2.2⟩, fun h => ⟨h.1, fun c hc => ?_, h.2⟩⟩
    exact (h.1 c (List.mem_of_head? hc)).1
  unfold nestingFault?
  simp only [List.findSome?_eq_none_iff, hnode]
  constructor
  · intro h p
    by_cases hp : p < nodes.size
    · exact h (nodeAt nodes p) (by simp [nodeAt, Array.getD, hp])
    · rw [nodeAt_eq_default (Nat.le_of_not_lt hp)]
      exact ⟨fun c hc => absurd hc List.not_mem_nil, List.isChain_nil⟩
  · intro h n hn
    obtain ⟨p, hp, rfl⟩ := List.mem_iff_getElem.1 hn
    have hsize : p < nodes.size := by simpa using hp
    have hchildren := h p
    simpa [nodeAt, Array.getD, hsize] using hchildren

/-- What closing a builder asks for. -/
structure Accepted (b : Builder) : Prop where
  opened : b.nodes.size ≠ 0
  closed : b.stack = []
  atStart : (nodeAt b.nodes 0).span.start = 0
  nested : nestingFault? b.nodes = none

/-- An accepted builder hands over its arena, and any other one a fault. -/
theorem finish_cases (b : Builder) :
    (b.Accepted ∧ ∃ t, b.finish = .ok t ∧
      t.nodes = b.nodes ∧ t.revision = b.revision ∧ t.hasError = b.hasError) ∨
    ¬ b.Accepted ∧ ∃ fault, b.finish = .error (.unparseable fault) := by
  unfold finish
  split
  · next hsize => exact Or.inr ⟨fun h => h.opened hsize, _, rfl⟩
  · next hsize =>
    split
    · next hopen => exact Or.inr ⟨fun h => hopen (congrArg List.length h.closed), _, rfl⟩
    · next hclosed =>
      have hclosed := List.length_eq_zero_iff.1 (Decidable.not_not.1 hclosed)
      split
      · next hstart => exact Or.inr ⟨fun h => hstart h.atStart, _, rfl⟩
      · next hstart =>
        split
        · next hfault => exact Or.inr ⟨fun h => (nomatch hfault.symm.trans h.nested), _, rfl⟩
        · next hfault =>
          exact Or.inl ⟨⟨hsize, hclosed, Decidable.not_not.1 hstart, hfault⟩, _, rfl, rfl, rfl, rfl⟩

theorem of_finish {b : Builder} {t : SyntaxTree} (h : b.finish = .ok t) :
    (t.nodes = b.nodes ∧ t.revision = b.revision ∧ t.hasError = b.hasError) ∧ b.Accepted := by
  rcases b.finish_cases with ⟨haccepted, other, hother, hsame⟩ | ⟨-, fault, hfault⟩
  · cases h.symm.trans hother
    exact ⟨hsame, haccepted⟩
  · exact nomatch h.symm.trans hfault

end Builder

-- ════════════════════════════════════════════════════════════════════════
-- Finished trees
-- ════════════════════════════════════════════════════════════════════════

namespace SyntaxTree

/-- A tree whose links agree, whose nodes contain their children, and whose root starts at zero. -/
structure Nested (t : SyntaxTree) : Prop where
  paired : Paired t.nodes
  contains_child : ∀ p c, c ∈ (t.node p).children → (t.span p).Contains (t.span c)
  root_start : t.root.span.start = 0

/-- The root, and the children of nodes that can be reached. -/
inductive Reachable (t : SyntaxTree) : Nat → Prop where
  | root : Reachable t rootId
  | child {p c : Nat} : Reachable t p → c ∈ (t.node p).children → Reachable t c

/-- Every tree that a builder finishes is nested. -/
theorem nested_of_build {revision : Int} {steps : List BuildStep} {t : SyntaxTree}
    (h : SyntaxTree.build revision steps = .ok t) : t.Nested := by
  obtain ⟨⟨hnodes, -⟩, -, -, hstart, hfault⟩ := Builder.of_finish h
  refine ⟨?_, ?_, ?_⟩
  · rw [hnodes]
    exact Builder.paired_run revision steps
  · intro p c hc
    rw [← hnodes] at hfault
    exact (Builder.nestingFault?_eq_none_iff.1 hfault p).1 c hc
  · rw [← hnodes] at hstart
    exact hstart

variable {t : SyntaxTree}

theorem parent_rootId (t : SyntaxTree) : (t.node rootId).parent = none := by
  cases hparent : (t.node rootId).parent with
  | none => rfl
  | some p => exact absurd (t.linked.parent_lt rootId p hparent) (Nat.not_lt_zero p)

theorem ancestors_eq_nil {id : Nat} (h : (t.node id).parent = none) : t.ancestors id = [] := by
  rw [ancestors]
  split
  · rfl
  · next p hp => rw [h] at hp; cases hp

theorem ancestors_eq_cons {id p : Nat} (h : (t.node id).parent = some p) :
    t.ancestors id = p :: t.ancestors p := by
  rw [ancestors]
  split
  · next hp => rw [h] at hp; cases hp
  · next q hq =>
    rw [h] at hq
    cases hq
    rfl

/-- A property that parents inherit from their children holds of all ancestors. -/
theorem ancestors_of_invariant {P : Nat → Prop}
    (hparent : ∀ id p, P id → (t.node id).parent = some p → P p) {id : Nat} (h : P id) :
    ∀ a ∈ t.ancestors id, P a := by
  induction id using Nat.strongRecOn with
  | ind id ih =>
    intro a ha
    cases hp : (t.node id).parent with
    | none =>
      rw [ancestors_eq_nil hp] at ha
      exact absurd ha List.not_mem_nil
    | some p =>
      rw [ancestors_eq_cons hp] at ha
      have hP := hparent id p h hp
      rcases List.mem_cons.1 ha with rfl | hmem
      · exact hP
      · exact ih p (t.linked.parent_lt id p hp) hP a hmem

theorem Reachable.lt_nodeCount {id : Nat} (h : t.Reachable id) : id < t.nodeCount := by
  cases h with
  | root => exact t.nonempty
  | child _ hmem => exact (t.linked.child_lt _ _ hmem).2

/-- A check that evaluates to true on the result of a build finds a tree that passes it. -/
theorem exists_of_build {revision : Int} {steps : List BuildStep} {check : SyntaxTree → Bool}
    (h : (SyntaxTree.build revision steps).map check = .ok true) :
    ∃ t, SyntaxTree.build revision steps = .ok t ∧ check t = true :=
  exists_of_map_eq_ok h

namespace Nested

theorem reachable_parent (h : t.Nested) {id p : Nat} (hid : t.Reachable id)
    (hp : (t.node id).parent = some p) : t.Reachable p := by
  cases hid with
  | root =>
    rw [parent_rootId] at hp
    exact nomatch hp
  | @child q _ hq hmem =>
    have hlink : (t.node id).parent = some q := (h.paired q id).1 hmem
    rw [hp] at hlink
    cases hlink
    exact hq

theorem contains_of_mem_ancestors (h : t.Nested) {id a : Nat} (ha : a ∈ t.ancestors id) :
    (t.span a).Contains (t.span id) := by
  refine ancestors_of_invariant (P := fun a => (t.span a).Contains (t.span id)) ?_
    (Span.Contains.refl _) a ha
  intro c p hc hp
  exact (h.contains_child p c ((h.paired p c).2 hp)).trans hc

/-- The way up from a reachable node ends at the root. -/
theorem root_mem_ancestors (h : t.Nested) {id : Nat} (hid : t.Reachable id) :
    id = rootId ∨ rootId ∈ t.ancestors id := by
  induction hid with
  | root => exact Or.inl rfl
  | @child p c _ hmem ih =>
    right
    rw [ancestors_eq_cons ((h.paired p c).1 hmem)]
    rcases ih with rfl | hroot
    · exact List.mem_cons_self
    · exact List.mem_cons_of_mem p hroot

theorem root_contains (h : t.Nested) {id : Nat} (hid : t.Reachable id) :
    t.root.span.Contains (t.span id) := by
  rcases h.root_mem_ancestors hid with rfl | hroot
  · exact Span.Contains.refl _
  · exact h.contains_of_mem_ancestors hroot

end Nested

end SyntaxTree

end SelectionGrowth
