import SelectionGrowth.Proofs.Syntax.Numbering

/-!
# Spans of a finished tree

Closing a builder compares a node with its parent and with its previous sibling
only. Together with the order of the numbers this fixes how any two nodes lie to
each other: one contains the other, or the one with the smaller number ends
before the other one starts.

## Main definitions

- `SyntaxTree.Ordered` — a nested tree in the order of its numbers

## Main statements

- `SyntaxTree.ordered_of_build` — every tree that a builder finishes is ordered
- `SyntaxTree.Ordered.stop_le_start` — nodes that are not nested do not overlap
- `SyntaxTree.structure_of_build` — the whole shape of a finished tree
-/

namespace SelectionGrowth

theorem EndsBefore.trans {nodes : Array Node} {a b c : Nat} (hab : EndsBefore nodes a b)
    (hbc : EndsBefore nodes b c) : EndsBefore nodes a c := by
  have hordered := (nodeAt nodes b).span.ordered
  unfold EndsBefore at *
  omega

/-- If nodes in the order of their numbers end one before the next, this holds of any two. -/
theorem endsBefore_of_isChain {nodes : Array Node} {ids : List Nat}
    (hincreasing : ids.Pairwise (· < ·)) (h : ids.IsChain (EndsBefore nodes)) {a b : Nat}
    (ha : a ∈ ids) (hb : b ∈ ids) (hab : a < b) : EndsBefore nodes a b := by
  have htrans : IsTrans Nat (EndsBefore nodes) := ⟨fun _ _ _ => EndsBefore.trans⟩
  have hincreasing := List.pairwise_iff_getElem.1 hincreasing
  have hbefore := List.pairwise_iff_getElem.1 h.pairwise
  obtain ⟨i, hi, rfl⟩ := List.mem_iff_getElem.1 ha
  obtain ⟨j, hj, rfl⟩ := List.mem_iff_getElem.1 hb
  rcases Nat.lt_trichotomy i j with hij | rfl | hji
  · exact hbefore i j hi hj hij
  · exact absurd hab (Nat.lt_irrefl _)
  · exact absurd hab (Nat.lt_asymm (hincreasing j i hj hi hji))

namespace SyntaxTree

/-- A nested tree whose nodes are numbered as they were opened and whose siblings do not overlap. -/
structure Ordered (t : SyntaxTree) : Prop extends t.Nested where
  numbered : Numbered t.nodes
  siblings : ∀ p, (t.node p).children.IsChain (EndsBefore t.nodes)

/-- Every tree that a builder finishes is ordered. -/
theorem ordered_of_build {revision : Int} {steps : List BuildStep} {t : SyntaxTree}
    (h : SyntaxTree.build revision steps = .ok t) : t.Ordered := by
  obtain ⟨⟨hnodes, -⟩, -, -, -, hfault⟩ := Builder.of_finish h
  rw [← hnodes] at hfault
  refine ⟨nested_of_build h, ?_, fun p => (Builder.nestingFault?_eq_none_iff.1 hfault p).2⟩
  rw [hnodes]
  exact (Builder.threaded_run revision steps).numbered

variable {t : SyntaxTree}

theorem Nested.contains_of_wayUp (h : t.Nested) {id a : Nat} (hup : WayUp t.nodes id a) :
    (t.span a).Contains (t.span id) := by
  rcases wayUp_iff.1 hup with rfl | hmem
  · exact Span.Contains.refl _
  · exact h.contains_of_mem_ancestors hmem

theorem Nested.reachable_of_wayUp (h : t.Nested) {id a : Nat} (hid : t.Reachable id)
    (hup : WayUp t.nodes id a) : t.Reachable a := by
  induction hup with
  | refl => exact hid
  | tail _ hparent ih => exact h.reachable_parent ih hparent

namespace Ordered

/-- Of two siblings the one with the smaller number ends before the other one starts. -/
theorem endsBefore_of_siblings (h : t.Ordered) {p a b : Nat} (ha : a ∈ (t.node p).children)
    (hb : b ∈ (t.node p).children) (hab : a < b) : EndsBefore t.nodes a b :=
  endsBefore_of_isChain (h.numbered.increasing p) (h.siblings p) ha hb hab

/-- Nodes that are not nested do not overlap, and lie in the text in the order of their numbers. -/
theorem stop_le_start (h : t.Ordered) {i j : Nat} (hj : t.Reachable j) (hij : i < j)
    (hnot : i ∉ t.ancestors j) : (t.span i).stop ≤ (t.span j).start := by
  induction hj with
  | root => exact absurd hij (Nat.not_lt_zero i)
  | @child p c hp hc ih =>
    have hparent : (t.node c).parent = some p := (h.paired p c).1 hc
    rw [ancestors_eq_cons hparent, List.mem_cons, not_or] at hnot
    have hcontains := h.contains_child p c hc
    rcases Nat.lt_trichotomy i p with hip | heq | hpi
    · -- the parent already starts after the end of the first node
      exact Nat.le_trans (ih hip hnot.2) hcontains.1
    · exact absurd heq hnot.1
    · -- the first node lies below the same parent, hence in an earlier sibling
      have hup : WayUp t.nodes i p := h.numbered.wayUp_of_between
        (Relation.ReflTransGen.single hparent) (Nat.le_of_lt hpi) (Nat.le_of_lt hij)
      obtain ⟨d, hd, hrest⟩ := hup.exists_child (Nat.ne_of_lt hpi)
      have hdc : d < c := Nat.lt_of_le_of_lt (hrest.le t.linked) hij
      have hbefore : (t.span d).stop ≤ (t.span c).start :=
        h.endsBefore_of_siblings ((h.paired p d).2 hd) hc hdc
      exact Nat.le_trans (h.toNested.contains_of_wayUp hrest).2 hbefore

/-- The way up from a node that can be reached ends at the root. -/
theorem getLast_ancestors (h : t.Ordered) {id : Nat} (hid : t.Reachable id) :
    (id :: t.ancestors id).getLast (List.cons_ne_nil _ _) = rootId := by
  induction hid with
  | root => simp [ancestors_eq_nil t.parent_rootId]
  | @child p c _ hc ih =>
    simpa [ancestors_eq_cons ((h.paired p c).1 hc)] using ih

end Ordered

/--
The shape of every tree that a builder finishes, in whatever order its steps came.
Parents and children name each other, parents have the smaller numbers, and the
way up from a node that can be reached ends at the root. The nodes that can be
reached are numbered `0, 1, …, k - 1` in the order in which a walk from the root
meets them. Every span has its ends in order, the root starts at zero, an
ancestor contains what lies below it, and of two nodes that are not nested the
one with the smaller number ends before the other one starts.
-/
theorem structure_of_build {revision : Int} {steps : List BuildStep} {t : SyntaxTree}
    (h : SyntaxTree.build revision steps = .ok t) :
    (∀ p c, (t.node c).parent = some p ↔ c ∈ (t.node p).children) ∧
    (∀ p c, (t.node c).parent = some p → p < c) ∧
    (∀ id, t.Reachable id →
      (id :: t.ancestors id).getLast (List.cons_ne_nil _ _) = rootId) ∧
    (∃ k, (∀ id, t.Reachable id ↔ id < k) ∧ t.preorder rootId = List.range k) ∧
    (∀ id, (t.span id).start ≤ (t.span id).stop) ∧
    t.root.span.start = 0 ∧
    (∀ id a, a ∈ t.ancestors id → (t.span a).Contains (t.span id)) ∧
    ∀ i j, t.Reachable i → t.Reachable j → i < j → i ∉ t.ancestors j →
      (t.span i).stop ≤ (t.span j).start := by
  have hordered := ordered_of_build h
  refine ⟨fun p c => (hordered.paired p c).symm, fun p c => t.linked.parent_lt c p,
    fun id => hordered.getLast_ancestors,
    exists_preorder_eq_range hordered.paired hordered.numbered, fun id => (t.span id).ordered,
    hordered.root_start, fun id a => hordered.contains_of_mem_ancestors, ?_⟩
  intro i j _ hj hij hnot
  exact hordered.stop_le_start hj hij hnot

/-- Steps with an end too many, and with a node that is opened after the root was closed. -/
def strayNodeSteps : List BuildStep :=
  [.finish 7, .start .compilationUnit "program" 0, .token .other "empty" (Span.caret 0),
    .start .block "block" 0, .token .other "name" (Span.ofBounds 1 2), .error, .finish 3,
    .token .other "semicolon" (Span.ofBounds 3 4), .finish 4,
    .token .other "stray" (Span.ofBounds 2 9)]

/-- Of the six nodes five can be reached, and the name inside the block ends before the semicolon
after it. -/
theorem structure_of_strayNode : ∃ t, SyntaxTree.build 0 strayNodeSteps = .ok t ∧
    t.nodeCount = 6 ∧ t.preorder rootId = List.range 5 ∧ (∀ id, t.Reachable id ↔ id < 5) ∧
    3 ∉ t.ancestors 4 ∧ (t.span 3).stop ≤ (t.span 4).start := by
  have hcheck : (SyntaxTree.build 0 strayNodeSteps).map (fun t => decide
      (t.nodeCount = 6 ∧ t.preorder rootId = List.range 5 ∧ 3 ∉ t.ancestors 4)) = .ok true := by
    decide +kernel
  obtain ⟨t, hbuild, hpasses⟩ := exists_of_build hcheck
  obtain ⟨hcount, hwalk, hnot⟩ := of_decide_eq_true hpasses
  obtain ⟨-, -, -, ⟨k, hreach, hrange⟩, -, -, -, hlaminar⟩ := structure_of_build hbuild
  have hk : k = 5 := by simpa using congrArg List.length (hrange.symm.trans hwalk)
  subst hk
  have h3 : t.Reachable 3 := (hreach 3).2 (by decide)
  have h4 : t.Reachable 4 := (hreach 4).2 (by decide)
  exact ⟨t, hbuild, hcount, hwalk, hreach, hnot, hlaminar 3 4 h3 h4 (by decide) hnot⟩

end SyntaxTree

end SelectionGrowth
