import SelectionGrowth.Proofs.Syntax.Nesting
import SelectionGrowth.Syntax.Listing

/-!
# Trees of listings

The build steps of a listing close every node that they open, and the root last
of all. The tree of a listing is therefore as long as its root was made.

## Main statements

- `SyntaxTree.revision_of_build` — a tree carries the revision it was built for
- `SyntaxTree.length_of_ofListing` — how long the tree of a listing is
-/

namespace SelectionGrowth

namespace Builder

theorem run_append (b : Builder) (steps rest : List BuildStep) :
    b.run (steps ++ rest) = (b.run steps).run rest :=
  List.foldl_append

theorem revision_closeNode (b : Builder) (stop : Nat) :
    (b.closeNode stop).revision = b.revision := by
  unfold closeNode
  split <;> rfl

theorem stack_run_finish (b : Builder) (stops : List Nat) :
    (b.run (stops.map BuildStep.finish)).stack = b.stack.drop stops.length := by
  induction stops generalizing b with
  | nil => rfl
  | cons stop stops ih =>
    show ((b.closeNode stop).run (stops.map BuildStep.finish)).stack = _
    rw [ih, stack_closeNode, List.length_cons, List.drop_tail]

/-- The steps below the root close what they open, and the nodes whose ends they were given. -/
theorem stack_run_stepsBelow (b : Builder) (kinds : KindTable) (ends : List Nat)
    (nodes : List ListedNode) :
    (b.run (Listing.stepsBelow kinds ends nodes)).stack = b.stack.drop ends.length := by
  induction nodes generalizing b ends with
  | nil => exact stack_run_finish b ends
  | cons n nodes ih =>
    rw [Listing.stepsBelow, run_append]
    generalize hclosed :
      b.run ((ends.take (ends.length + 1 - n.depth)).map BuildStep.finish) = closed
    show ((closed.openNode (kinds.kindOf n.name) n.name n.start).run _).stack = _
    rw [ih]
    show (closed.nodes.size :: closed.stack).drop _ = _
    -- the new node is dropped again, with those that were left open before it
    rw [List.length_cons, List.drop_succ_cons, ← hclosed, stack_run_finish, List.drop_drop]
    congr 1
    rw [List.length_take, List.length_drop]
    omega

/-- The last step of a listing closes the root, which is then the only open node. -/
theorem exists_run_steps (revision : Int) (kinds : KindTable) (textLength : Nat)
    {listing : Listing} {root : ListedNode} {rest : List ListedNode}
    (hnodes : listing.nodes = root :: rest) :
    ∃ b : Builder, b.stack = [SyntaxTree.rootId] ∧
      (new revision).run (listing.steps kinds textLength) =
        b.closeNode (max textLength root.stop) := by
  unfold Listing.steps
  rw [hnodes]
  simp only
  rw [run_append]
  generalize hmarked : (new revision).run
    (if listing.hasError then [BuildStep.error] else []) = marked
  have hempty : marked.stack = [] ∧ marked.nodes.size = 0 := by
    rw [← hmarked]
    split <;> exact ⟨rfl, rfl⟩
  refine ⟨(marked.openNode (kinds.kindOf root.name) root.name 0).run
    (Listing.stepsBelow kinds [] rest), ?_, ?_⟩
  · rw [stack_run_stepsBelow]
    show marked.nodes.size :: marked.stack = [SyntaxTree.rootId]
    rw [hempty.1, hempty.2]
    rfl
  · show (marked.openNode (kinds.kindOf root.name) root.name 0).run _ = _
    rw [run_append]
    rfl

end Builder

namespace SyntaxTree

theorem revision_of_build {revision : Int} {steps : List BuildStep} {t : SyntaxTree}
    (h : SyntaxTree.build revision steps = .ok t) : t.revision = revision := by
  rw [(Builder.of_finish h).1.2.1]
  refine Builder.run_of_invariant (P := fun b => b.revision = revision) ?_ ?_ ?_ rfl steps
  · exact fun b kind name start hb => hb
  · exact fun b stop hb => (Builder.revision_closeNode b stop).trans hb
  · exact fun b hb => hb

theorem exists_root_of_ofListing {kinds : KindTable} {textLength : Nat} {revision : Int}
    {listing : Listing} {t : SyntaxTree}
    (h : SyntaxTree.ofListing kinds textLength revision listing = .ok t) :
    ∃ root, listing.nodes.head? = some root := by
  cases hnodes : listing.nodes with
  | cons root rest => exact ⟨root, rfl⟩
  | nil =>
    unfold ofListing Listing.replay at h
    rw [hnodes] at h
    split at h <;> exact nomatch h

/-- The tree of a listing ends at the end of the text, or at that of the listed root if it is
further. -/
theorem length_of_ofListing {kinds : KindTable} {textLength : Nat} {revision : Int}
    {listing : Listing} {root : ListedNode} {t : SyntaxTree}
    (h : SyntaxTree.ofListing kinds textLength revision listing = .ok t)
    (hroot : listing.nodes.head? = some root) : t.length = max textLength root.stop := by
  obtain ⟨rest, hnodes⟩ := List.head?_eq_some_iff.1 hroot
  rw [ofListing_eq_build] at h
  obtain ⟨⟨hfinal, -⟩, -, -, hstart, -⟩ := Builder.of_finish h
  obtain ⟨b, hstack, hrun⟩ := Builder.exists_run_steps revision kinds textLength hnodes
  have hsize : rootId < b.nodes.size := b.stack_lt rootId (by rw [hstack]; exact List.mem_cons_self)
  have hclosed : nodeAt t.nodes rootId =
      { nodeAt b.nodes rootId with
        span := (nodeAt b.nodes rootId).span.closeAt (max textLength root.stop) } := by
    rw [hfinal, hrun, Builder.nodes_closeNode hstack, nodeAt_closeSpan, if_pos ⟨rfl, hsize⟩]
  have hzero : (nodeAt b.nodes rootId).span.start = 0 := by
    rw [← hfinal] at hstart
    have hspan := congrArg (fun n => n.span.start) hclosed
    exact hspan.symm.trans hstart
  show (nodeAt t.nodes rootId).span.stop = _
  rw [hclosed]
  show max (max textLength root.stop) (nodeAt b.nodes rootId).span.start = _
  rw [hzero, Nat.max_zero]

end SyntaxTree

end SelectionGrowth
