import Mathlib.Data.List.Sort
import Mathlib.Logic.Relation
import SelectionGrowth.Proofs.Syntax.Nesting

/-!
# Numbering of nodes

A builder numbers nodes in the order in which they are opened, and opens each
under the innermost open one. A new node therefore hangs from the way up of the
node opened just before it. This file carries that fact through a whole build
and draws from it that the nodes below a node are numbered in one run.

## Main definitions

- `WayUp` — parent links lead from one node to another
- `Numbered` — parents lie on the way up of the preceding node, siblings in order
- `Builder.Threaded` — the open nodes lie on the way up of the latest node

## Main statements

- `Builder.threaded_run` — every run of a builder is threaded
- `Numbered.wayUp_of_between` — the nodes below a node are numbered in one run
- `SyntaxTree.exists_preorder_eq_range` — a walk from the root meets `0, 1, …, k - 1`
-/

namespace SelectionGrowth

/-- Parent links lead from a node up to another, or the two are the same. -/
def WayUp (nodes : Array Node) : Nat → Nat → Prop :=
  Relation.ReflTransGen fun c p => (nodeAt nodes c).parent = some p

/--
What the order of opening leaves in an arena: a parent lies on the way up of the
node before its child, and children are listed in the order of their numbers.
-/
structure Numbered (nodes : Array Node) : Prop where
  follows : ∀ c p, (nodeAt nodes c).parent = some p → WayUp nodes (c - 1) p
  increasing : ∀ p, (nodeAt nodes p).children.Pairwise (· < ·)

variable {nodes : Array Node}

theorem WayUp.le (hlinked : Linked nodes) {id a : Nat} (h : WayUp nodes id a) : a ≤ id := by
  induction h with
  | refl => exact Nat.le_refl id
  | tail _ hparent ih =>
    have := hlinked.parent_lt _ _ hparent
    omega

/-- The way up to a node above ends with one of its children. -/
theorem WayUp.exists_child {id a : Nat} (h : WayUp nodes id a) (hne : a ≠ id) :
    ∃ c, (nodeAt nodes c).parent = some a ∧ WayUp nodes id c := by
  rcases Relation.ReflTransGen.cases_tail h with heq | ⟨c, hup, hparent⟩
  · exact absurd heq hne
  · exact ⟨c, hparent, hup⟩

/-- Of two nodes above the same node one lies above the other. -/
theorem WayUp.total {id a b : Nat} (ha : WayUp nodes id a) (hb : WayUp nodes id b) :
    WayUp nodes a b ∨ WayUp nodes b a :=
  Relation.ReflTransGen.total_of_right_unique
    (fun _ _ _ hp hq => Option.some.inj (hp.symm.trans hq)) ha hb

namespace Numbered

/-- If a node lies below another, so does the node opened before it, down to that other one. -/
theorem wayUp_pred (h : Numbered nodes) {n a : Nat} (hup : WayUp nodes (n + 1) a)
    (hne : a ≠ n + 1) : WayUp nodes n a := by
  rcases Relation.ReflTransGen.cases_head hup with heq | ⟨p, hparent, hrest⟩
  · exact absurd heq.symm hne
  · exact (h.follows (n + 1) p hparent).trans hrest

/-- The nodes below a node are numbered in one run. -/
theorem wayUp_of_between (h : Numbered nodes) {a i c : Nat} (hup : WayUp nodes c a)
    (hai : a ≤ i) (hic : i ≤ c) : WayUp nodes i a := by
  induction c, hic using Nat.le_induction with
  | base => exact hup
  | succ c hic ih => exact ih (h.wayUp_pred hup (by omega))

/-- No node lies below two siblings: what is below the first comes before the second. -/
theorem lt_of_wayUp_sibling (h : Numbered nodes) (hlinked : Linked nodes) {p a b x : Nat}
    (ha : (nodeAt nodes a).parent = some p) (hb : (nodeAt nodes b).parent = some p)
    (hab : a < b) (hx : WayUp nodes x a) : x < b := by
  by_contra hle
  -- otherwise the second sibling would lie below the first, and their parent with it
  have hup : WayUp nodes b a := h.wayUp_of_between hx (Nat.le_of_lt hab) (Nat.le_of_not_lt hle)
  have hpa := hlinked.parent_lt a p ha
  rcases Relation.ReflTransGen.cases_head hup with heq | ⟨q, hq, hrest⟩
  · omega
  · rw [hb] at hq
    cases hq
    have := WayUp.le hlinked hrest
    omega

end Numbered

-- ════════════════════════════════════════════════════════════════════════
-- Arenas under construction
-- ════════════════════════════════════════════════════════════════════════

theorem parent_attachNode {parent : Option Nat} (kind : Kind) (name : String) (start : Nat)
    {c p : Nat} (h : (nodeAt nodes c).parent = some p) :
    (nodeAt (attachNode nodes parent kind name start) c).parent = some p := by
  rw [nodeAt_attachNode, if_neg (Nat.ne_of_lt (lt_size_of_parent h))]
  split <;> exact h

theorem WayUp.attachNode {parent : Option Nat} (kind : Kind) (name : String) (start : Nat)
    {id a : Nat} (h : WayUp nodes id a) :
    WayUp (attachNode nodes parent kind name start) id a :=
  Relation.ReflTransGen.mono (fun _ _ hlink => parent_attachNode kind name start hlink) id a h

@[simp]
theorem wayUp_closeSpan (nodes : Array Node) (at_ stop id a : Nat) :
    WayUp (closeSpan nodes at_ stop) id a ↔ WayUp nodes id a := by
  simp [WayUp]

/-- A new last node under one on the way up of the last keeps the numbering. -/
theorem Numbered.attachNode (h : Numbered nodes) (hlinked : Linked nodes) {parent : Option Nat}
    (hparent : ∀ p, parent = some p → WayUp nodes (nodes.size - 1) p) (kind : Kind)
    (name : String) (start : Nat) : Numbered (attachNode nodes parent kind name start) where
  follows c p hlink := by
    rw [nodeAt_attachNode] at hlink
    split at hlink
    · next hc => exact hc ▸ (hparent p hlink).attachNode kind name start
    · have hold : (nodeAt nodes c).parent = some p := by
        split at hlink <;> exact hlink
      exact (h.follows c p hold).attachNode kind name start
  increasing p := by
    rw [nodeAt_attachNode]
    split
    · exact List.Pairwise.nil
    · split
      · refine List.pairwise_append.2 ⟨h.increasing p, List.pairwise_singleton _ _, ?_⟩
        intro c hc new hnew
        have := (hlinked.child_lt p c hc).2
        have := List.mem_singleton.1 hnew
        omega
      · exact h.increasing p

theorem Numbered.closeSpan (h : Numbered nodes) (at_ stop : Nat) :
    Numbered (closeSpan nodes at_ stop) where
  follows c p hlink := by
    rw [parent_closeSpan] at hlink
    rw [wayUp_closeSpan]
    exact h.follows c p hlink
  increasing p := by
    rw [children_closeSpan]
    exact h.increasing p

namespace Builder

/-- The open nodes are each other's parents, and the innermost is on the way up of the latest. -/
structure Threaded (b : Builder) : Prop where
  numbered : Numbered b.nodes
  path : b.stack.IsChain fun c p => (nodeAt b.nodes c).parent = some p
  latest : ∀ id, b.stack.head? = some id → WayUp b.nodes (b.nodes.size - 1) id

theorem threaded_new (revision : Int) : (new revision).Threaded where
  numbered :=
    { follows := fun c p hlink => by
        have hnode : nodeAt #[] c = default := nodeAt_eq_default (Nat.zero_le c)
        exact nomatch (congrArg Node.parent hnode).symm.trans hlink
      increasing := fun p => by
        have hnode : nodeAt #[] p = default := nodeAt_eq_default (Nat.zero_le p)
        show (nodeAt #[] p).children.Pairwise (· < ·)
        rw [hnode]
        exact List.Pairwise.nil }
  path := List.isChain_nil
  latest id hid := nomatch hid

theorem Threaded.openNode {b : Builder} (h : b.Threaded) (kind : Kind) (name : String)
    (start : Nat) : (b.openNode kind name start).Threaded where
  numbered := h.numbered.attachNode b.linked h.latest kind name start
  path := by
    have hparent : (nodeAt (b.openNode kind name start).nodes b.nodes.size).parent =
        b.stack.head? := by
      rw [nodeAt_openNode_self]
    have hpath : b.stack.IsChain fun c p =>
        (nodeAt (b.openNode kind name start).nodes c).parent = some p :=
      h.path.imp fun _ _ hlink => parent_attachNode kind name start hlink
    show (b.nodes.size :: b.stack).IsChain _
    exact List.isChain_cons.2 ⟨fun p hp => hparent.trans hp, hpath⟩
  latest id hid := by
    have hnew : id = b.nodes.size := (Option.some.inj hid).symm
    have hsize : (b.openNode kind name start).nodes.size - 1 = b.nodes.size := by
      rw [size_openNode, Nat.add_sub_cancel]
    rw [hsize, hnew]
    exact Relation.ReflTransGen.refl

theorem Threaded.closeNode {b : Builder} (h : b.Threaded) (stop : Nat) :
    (b.closeNode stop).Threaded := by
  cases hstack : b.stack with
  | nil =>
    have hsame : b.closeNode stop = b := by
      unfold Builder.closeNode
      split
      · rfl
      · next heq => exact nomatch hstack.symm.trans heq
    rw [hsame]
    exact h
  | cons id rest =>
    have hnodes := nodes_closeNode hstack stop
    have hrest : (b.closeNode stop).stack = rest := by
      rw [stack_closeNode, hstack, List.tail_cons]
    have hpath := h.path
    rw [hstack, List.isChain_cons] at hpath
    refine ⟨?_, ?_, ?_⟩
    · rw [hnodes]
      exact h.numbered.closeSpan id stop
    · rw [hnodes, hrest]
      simpa using hpath.2
    · intro p hp
      rw [hrest] at hp
      rw [hnodes, size_closeSpan, wayUp_closeSpan]
      -- the way up to the closed node goes on to its parent, which is now innermost
      have hup : WayUp b.nodes (b.nodes.size - 1) id := h.latest id (by rw [hstack]; rfl)
      exact hup.tail (hpath.1 p hp)

/-- Every run of a builder is threaded, whatever the order of its steps. -/
theorem threaded_run (revision : Int) (steps : List BuildStep) :
    ((new revision).run steps).Threaded :=
  run_of_invariant (P := Threaded) (fun _ kind name start h => h.openNode kind name start)
    (fun _ stop h => h.closeNode stop) (fun _ h => ⟨h.numbered, h.path, h.latest⟩)
    (threaded_new revision) steps

end Builder

-- ════════════════════════════════════════════════════════════════════════
-- Walks of a tree
-- ════════════════════════════════════════════════════════════════════════

namespace SyntaxTree

variable {t : SyntaxTree}

theorem wayUp_iff {id a : Nat} : WayUp t.nodes id a ↔ a = id ∨ a ∈ t.ancestors id := by
  constructor
  · intro h
    induction h using Relation.ReflTransGen.head_induction_on with
    | refl => exact Or.inl rfl
    | @head c p hparent _ ih =>
      right
      rw [ancestors_eq_cons hparent]
      exact List.mem_cons.2 ih
  · rintro (rfl | hmem)
    · exact Relation.ReflTransGen.refl
    · exact ancestors_of_invariant (P := WayUp t.nodes id) (fun _ _ hup hp => hup.tail hp)
        Relation.ReflTransGen.refl a hmem

theorem reachable_iff_wayUp (hpaired : Paired t.nodes) {id : Nat} :
    t.Reachable id ↔ WayUp t.nodes id rootId := by
  constructor
  · intro h
    induction h with
    | root => exact Relation.ReflTransGen.refl
    | child _ hmem ih => exact ih.head ((hpaired _ _).1 hmem)
  · intro h
    induction h using Relation.ReflTransGen.head_induction_on with
    | refl => exact Reachable.root
    | head hparent _ ih => exact ih.child ((hpaired _ _).2 hparent)

theorem preorder_eq (t : SyntaxTree) (id : Nat) :
    t.preorder id = id :: (t.node id).children.flatMap t.preorder := by
  rw [preorder]
  simp [List.flatMap_subtype]

/-- A walk from a node meets the node and all that lies below it. -/
theorem mem_preorder_iff (hpaired : Paired t.nodes) {x id : Nat} :
    x ∈ t.preorder id ↔ WayUp t.nodes x id := by
  induction id using preorder.induct t with
  | case1 id ih =>
    rw [preorder_eq, List.mem_cons, List.mem_flatMap]
    constructor
    · rintro (rfl | ⟨c, hc, hx⟩)
      · exact Relation.ReflTransGen.refl
      · exact ((ih ⟨c, hc⟩).1 hx).tail ((hpaired id c).1 hc)
    · intro hup
      by_cases hne : id = x
      · exact Or.inl hne.symm
      · obtain ⟨c, hparent, hrest⟩ := hup.exists_child hne
        have hc := (hpaired id c).2 hparent
        exact Or.inr ⟨c, hc, (ih ⟨c, hc⟩).2 hrest⟩

/-- A walk meets nodes in the order of their numbers. -/
theorem pairwise_preorder (hpaired : Paired t.nodes) (h : Numbered t.nodes) (id : Nat) :
    (t.preorder id).Pairwise (· < ·) := by
  induction id using preorder.induct t with
  | case1 id ih =>
    rw [preorder_eq, List.pairwise_cons, List.pairwise_flatMap]
    refine ⟨?_, fun c hc => ih ⟨c, hc⟩, ?_⟩
    · intro x hx
      obtain ⟨c, hc, hx⟩ := List.mem_flatMap.1 hx
      have hle := ((mem_preorder_iff hpaired).1 hx).le t.linked
      have hlt := (t.linked.child_lt id c hc).1
      omega
    · refine (h.increasing id).imp_of_mem ?_
      intro a b ha hb hab x hx y hy
      have hxb : x < b := h.lt_of_wayUp_sibling t.linked ((hpaired id a).1 ha)
        ((hpaired id b).1 hb) hab ((mem_preorder_iff hpaired).1 hx)
      have hby := ((mem_preorder_iff hpaired).1 hy).le t.linked
      omega

/-- If the nodes that can be reached are the first ones, a walk meets them one by one. -/
theorem preorder_eq_range (hpaired : Paired t.nodes) (h : Numbered t.nodes) {k : Nat}
    (hreach : ∀ id, t.Reachable id ↔ id < k) : t.preorder rootId = List.range k := by
  refine (pairwise_preorder hpaired h rootId).eq_of_mem_iff List.pairwise_lt_range fun id => ?_
  rw [mem_preorder_iff hpaired, ← reachable_iff_wayUp hpaired, hreach, List.mem_range]

/-- The nodes that can be reached are the first ones, in the order of a walk. -/
theorem exists_preorder_eq_range (hpaired : Paired t.nodes) (h : Numbered t.nodes) :
    ∃ k, (∀ id, t.Reachable id ↔ id < k) ∧ t.preorder rootId = List.range k := by
  classical
  have hbound : ∃ k, ¬ t.Reachable k :=
    ⟨t.nodeCount, fun hcount => Nat.lt_irrefl _ hcount.lt_nodeCount⟩
  -- whatever comes before a node that can be reached can be reached
  have hdown : ∀ i j, i ≤ j → t.Reachable j → t.Reachable i := by
    intro i j hij hj
    rw [reachable_iff_wayUp hpaired] at hj ⊢
    exact h.wayUp_of_between hj (Nat.zero_le i) hij
  have hreach : ∀ id, t.Reachable id ↔ id < Nat.find hbound := by
    intro id
    refine ⟨fun hid => ?_, fun hlt => Decidable.not_not.1 (Nat.find_min hbound hlt)⟩
    by_contra hle
    exact Nat.find_spec hbound (hdown _ id (Nat.le_of_not_lt hle) hid)
  exact ⟨Nat.find hbound, hreach, preorder_eq_range hpaired h hreach⟩

end SyntaxTree

end SelectionGrowth
