import Mathlib.Data.List.Infix
import SelectionGrowth.Proofs.Syntax.Conversion
import SelectionGrowth.Proofs.Syntax.Numbering

/-!
# Replaying a listing

A listing gives the nodes of a parse in preorder with their depths. While its
steps are replayed, the open nodes of the builder are one for each depth, and a
node that has been closed has the end that the listing gives it. This file states
that as an invariant of the builder and carries it from the first step to the
last.

## Main definitions

- `Listing.WellFormed` — the depths are those of a preorder, and spans have their ends in order
- `Listing.covering` — the nodes of a listing, with a root that covers the text
- `Builder.Mirrors` — a builder that has replayed the first nodes of a listing

## Main statements

- `Builder.Mirrors.openNode`, `Builder.Mirrors.closeNode` — one step of the replay
- `Builder.mirrors_run_steps` — the builder after all steps of a listing
-/

namespace SelectionGrowth

namespace Listing

/-- The depth of a node of a listing. -/
def depthAt (nodes : List ListedNode) (id : Nat) : Nat :=
  (nodes[id]?).elim 0 ListedNode.depth

/-- The end of a node of a listing. -/
def stopAt (nodes : List ListedNode) (id : Nat) : Nat :=
  (nodes[id]?).elim 0 ListedNode.stop

/--
What a preorder of a parse is: the root comes first and is the only node of depth
zero, no node is more than one deeper than the node before it, and no node ends
before it starts.
-/
structure WellFormed (nodes : List ListedNode) : Prop where
  root : ∃ root, nodes.head? = some root ∧ root.depth = 0
  below : ∀ n ∈ nodes.tail, 0 < n.depth
  deepens : nodes.IsChain fun before n => n.depth ≤ before.depth + 1
  ordered : ∀ n ∈ nodes, n.start ≤ n.stop

/-- The nodes of a listing, with a root that starts at zero and reaches to the end of the text, or
to its own end if that is further. -/
def covering (textLength : Nat) : List ListedNode → List ListedNode
  | [] => []
  | root :: rest => { root with start := 0, stop := max textLength root.stop } :: rest

@[simp]
theorem length_covering (textLength : Nat) (nodes : List ListedNode) :
    (covering textLength nodes).length = nodes.length := by
  cases nodes <;> rfl

theorem WellFormed.covering {nodes : List ListedNode} (h : WellFormed nodes) (textLength : Nat) :
    WellFormed (covering textLength nodes) := by
  obtain ⟨⟨root, hroot, hzero⟩, hbelow, hdeepens, hordered⟩ := h
  obtain ⟨rest, rfl⟩ := List.head?_eq_some_iff.1 hroot
  refine ⟨⟨_, rfl, hzero⟩, hbelow, ?_, ?_⟩
  · rw [List.isChain_cons] at hdeepens
    exact List.isChain_cons.2 hdeepens
  · intro n hn
    rcases List.mem_cons.1 hn with rfl | hrest
    · exact Nat.zero_le _
    · exact hordered n (List.mem_cons_of_mem root hrest)

end Listing

namespace Builder

variable {kinds : KindTable} {nodes : List ListedNode} {b : Builder}

/--
A builder that has replayed the first nodes of a listing: the names, kinds and
starts are those of the listing, and so are the ends of the nodes that have been
closed. A node is one deeper than its parent, and the open nodes are one for each
depth.
-/
structure Mirrors (kinds : KindTable) (nodes : List ListedNode) (b : Builder) : Prop where
  labels : ∀ id n, id < b.nodes.size → nodes[id]? = some n →
    (nodeAt b.nodes id).kind = kinds.kindOf n.name ∧ (nodeAt b.nodes id).name = n.name ∧
      (nodeAt b.nodes id).span.start = n.start
  closed : ∀ id n, id < b.nodes.size → id ∉ b.stack → nodes[id]? = some n →
    (nodeAt b.nodes id).span.stop = n.stop
  deeper : ∀ c p, (nodeAt b.nodes c).parent = some p →
    Listing.depthAt nodes p + 1 = Listing.depthAt nodes c
  top : ∀ c, c < b.nodes.size → (nodeAt b.nodes c).parent = none → Listing.depthAt nodes c = 0
  depths : ∀ k id, b.stack[k]? = some id → Listing.depthAt nodes id + k + 1 = b.stack.length

/-- Opening the next node of a listing, after all nodes as deep as it have been closed. -/
theorem Mirrors.openNode (h : b.Mirrors kinds nodes) {n : ListedNode}
    (hn : nodes[b.nodes.size]? = some n) (hdepth : n.depth = b.stack.length) :
    (b.openNode (kinds.kindOf n.name) n.name n.start).Mirrors kinds nodes := by
  have hsize := size_openNode b (kinds.kindOf n.name) n.name n.start
  have hnew := nodeAt_openNode_self b (kinds.kindOf n.name) n.name n.start
  have hold := exists_nodeAt_openNode b (kinds.kindOf n.name) n.name n.start
  have hat : Listing.depthAt nodes b.nodes.size = b.stack.length := by
    rw [Listing.depthAt, hn]
    exact hdepth
  refine ⟨?_, ?_, ?_, ?_, ?_⟩
  · intro id m hid hm
    by_cases hne : id = b.nodes.size
    · subst hne
      rw [hn] at hm
      cases hm
      rw [hnew]
      exact ⟨rfl, rfl, rfl⟩
    · obtain ⟨children, hnode⟩ := hold id hne
      rw [hnode]
      exact h.labels id m (by omega) hm
  · intro id m hid hopen hm
    have hopen' := not_or.1 (fun hmem => hopen (List.mem_cons.2 hmem))
    obtain ⟨children, hnode⟩ := hold id hopen'.1
    rw [hnode]
    exact h.closed id m (by omega) hopen'.2 hm
  · intro c p hparent
    by_cases hne : c = b.nodes.size
    · subst hne
      rw [hnew] at hparent
      have hhead := h.depths 0 p (by rw [← List.head?_eq_getElem?]; exact hparent)
      omega
    · obtain ⟨children, hnode⟩ := hold c hne
      rw [hnode] at hparent
      exact h.deeper c p hparent
  · intro c hc hparent
    by_cases hne : c = b.nodes.size
    · subst hne
      rw [hnew] at hparent
      rw [hat, List.head?_eq_none_iff.1 hparent, List.length_nil]
    · obtain ⟨children, hnode⟩ := hold c hne
      rw [hnode] at hparent
      exact h.top c (by omega) hparent
  · intro k id hid
    show Listing.depthAt nodes id + k + 1 = b.stack.length + 1
    have hcons : (b.nodes.size :: b.stack)[k]? = some id := hid
    cases k with
    | zero =>
      rw [List.getElem?_cons_zero] at hcons
      cases hcons
      omega
    | succ k =>
      rw [List.getElem?_cons_succ] at hcons
      have := h.depths k id hcons
      omega

/-- Closing the innermost open node at the end that the listing gives it. -/
theorem Mirrors.closeNode (h : b.Mirrors kinds nodes) {id : Nat} {rest : List Nat}
    (hstack : b.stack = id :: rest) (hordered : ∀ n ∈ nodes, n.start ≤ n.stop) :
    (b.closeNode (Listing.stopAt nodes id)).Mirrors kinds nodes := by
  have hnodes := nodes_closeNode hstack (Listing.stopAt nodes id)
  have hrest : (b.closeNode (Listing.stopAt nodes id)).stack = rest := by
    rw [stack_closeNode, hstack, List.tail_cons]
  refine ⟨?_, ?_, ?_, ?_, ?_⟩
  · intro other n hother hn
    rw [hnodes, size_closeSpan] at hother
    rw [hnodes, nodeAt_closeSpan]
    split <;> exact h.labels other n hother hn
  · intro other n hother hopen hn
    rw [hnodes, size_closeSpan] at hother
    rw [hrest] at hopen
    rw [hnodes, nodeAt_closeSpan]
    by_cases heq : other = id
    · subst heq
      rw [if_pos ⟨rfl, hother⟩]
      show max (Listing.stopAt nodes other) (nodeAt b.nodes other).span.start = n.stop
      rw [(h.labels other n hother hn).2.2, Listing.stopAt, hn]
      exact Nat.max_eq_left (hordered n (List.mem_of_getElem? hn))
    · rw [if_neg fun hcond => heq hcond.1]
      refine h.closed other n hother ?_ hn
      rw [hstack]
      exact fun hmem => (List.mem_cons.1 hmem).elim heq hopen
  · intro c p hparent
    rw [hnodes, parent_closeSpan] at hparent
    exact h.deeper c p hparent
  · intro c hc hparent
    rw [hnodes, size_closeSpan] at hc
    rw [hnodes, parent_closeSpan] at hparent
    exact h.top c hc hparent
  · intro k other hother
    rw [hrest] at hother ⊢
    have hlength : b.stack.length = rest.length + 1 := by rw [hstack, List.length_cons]
    have := h.depths (k + 1) other (by rw [hstack, List.getElem?_cons_succ]; exact hother)
    omega

/-- Closing the innermost open nodes, each at its own end. -/
theorem Mirrors.run_finish (h : b.Mirrors kinds nodes) {ends : List Nat}
    (hends : ends <+: b.stack.map (Listing.stopAt nodes))
    (hordered : ∀ n ∈ nodes, n.start ≤ n.stop) :
    (b.run (ends.map BuildStep.finish)).Mirrors kinds nodes ∧
      (b.run (ends.map BuildStep.finish)).nodes.size = b.nodes.size := by
  induction ends generalizing b with
  | nil => exact ⟨h, rfl⟩
  | cons stop ends ih =>
    cases hstack : b.stack with
    | nil =>
      rw [hstack, List.map_nil, List.prefix_nil] at hends
      exact nomatch hends
    | cons id rest =>
      rw [hstack, List.map_cons, List.cons_prefix_cons] at hends
      obtain ⟨rfl, hrest⟩ := hends
      have hclosed := h.closeNode hstack hordered
      have hsize : (b.closeNode (Listing.stopAt nodes id)).nodes.size = b.nodes.size := by
        rw [nodes_closeNode hstack, size_closeSpan]
      have htail : ends <+: (b.closeNode (Listing.stopAt nodes id)).stack.map
          (Listing.stopAt nodes) := by
        rw [stack_closeNode, hstack, List.tail_cons]
        exact hrest
      obtain ⟨hmirrors, hsame⟩ := ih hclosed htail
      exact ⟨hmirrors, hsame.trans hsize⟩

/-- Replaying the nodes below the root, from a builder that has replayed the nodes before. -/
theorem Mirrors.run_stepsBelow (h : b.Mirrors kinds nodes) {ends : List Nat}
    {rest : List ListedNode} (hrest : nodes.drop b.nodes.size = rest)
    (hends : ends <+: b.stack.map (Listing.stopAt nodes)) (hopen : b.stack.length = ends.length + 1)
    (hbelow : ∀ n ∈ rest, 0 < n.depth) (hfirst : ∀ n ∈ rest.head?, n.depth ≤ ends.length + 1)
    (hdeepens : rest.IsChain fun before n => n.depth ≤ before.depth + 1)
    (hordered : ∀ n ∈ nodes, n.start ≤ n.stop) :
    (b.run (Listing.stepsBelow kinds ends rest)).Mirrors kinds nodes ∧
      (b.run (Listing.stepsBelow kinds ends rest)).nodes.size = b.nodes.size + rest.length := by
  induction rest generalizing b ends with
  | nil => exact h.run_finish hends hordered
  | cons n rest ih =>
    rw [Listing.stepsBelow, run_append]
    -- closing leaves one open node for each depth above the new node
    have hpositive := hbelow n List.mem_cons_self
    have hdepth := hfirst n rfl
    obtain ⟨hmirrors, hsize⟩ :=
      h.run_finish ((List.take_prefix (ends.length + 1 - n.depth) ends).trans hends) hordered
    have hstack := stack_run_finish b (ends.take (ends.length + 1 - n.depth))
    have htaken : (ends.take (ends.length + 1 - n.depth)).length = ends.length + 1 - n.depth := by
      rw [List.length_take]
      omega
    rw [htaken] at hstack
    generalize b.run ((ends.take (ends.length + 1 - n.depth)).map BuildStep.finish) = closed
      at hmirrors hsize hstack ⊢
    have hnext : nodes[closed.nodes.size]? = some n := by
      rw [hsize, ← List.head?_drop, hrest]
      rfl
    have hlength : n.depth = closed.stack.length := by
      rw [hstack, List.length_drop]
      omega
    have hopened := hmirrors.openNode hnext hlength
    have hopenedSize : (closed.openNode (kinds.kindOf n.name) n.name n.start).nodes.size =
        b.nodes.size + 1 := by
      rw [size_openNode, hsize]
    have hdrop : nodes.drop (closed.openNode (kinds.kindOf n.name) n.name n.start).nodes.size =
        rest := by
      rw [hopenedSize, ← List.drop_drop, hrest, List.drop_one, List.tail_cons]
    have hprefix : n.stop :: ends.drop (ends.length + 1 - n.depth) <+:
        (closed.nodes.size :: closed.stack).map (Listing.stopAt nodes) := by
      rw [List.map_cons, List.cons_prefix_cons, Listing.stopAt, hnext, hstack, List.map_drop]
      exact ⟨rfl, hends.drop _⟩
    have hkept : (ends.drop (ends.length + 1 - n.depth)).length + 1 = n.depth := by
      rw [List.length_drop]
      omega
    obtain ⟨hdone, hdoneSize⟩ := ih hopened hdrop hprefix
      (by rw [List.length_cons, hkept, hlength]; rfl)
      (fun m hm => hbelow m (List.mem_cons_of_mem n hm))
      (fun m hm => by
        rw [List.length_cons, hkept]
        exact (List.isChain_cons.1 hdeepens).1 m hm)
      (List.isChain_cons.1 hdeepens).2
    refine ⟨hdone, hdoneSize.trans ?_⟩
    rw [hopenedSize, List.length_cons]
    omega

theorem hasError_closeNode (b : Builder) (stop : Nat) :
    (b.closeNode stop).hasError = b.hasError := by
  unfold Builder.closeNode
  split <;> rfl

theorem hasError_run (b : Builder) {steps : List BuildStep} (h : BuildStep.error ∉ steps) :
    (b.run steps).hasError = b.hasError := by
  induction steps generalizing b with
  | nil => rfl
  | cons buildStep steps ih =>
    obtain ⟨hfirst, hrest⟩ := not_or.1 (mt List.mem_cons.2 h)
    refine (ih (b.step buildStep) hrest).trans ?_
    cases buildStep with
    | start kind name start => rfl
    | finish stop => exact hasError_closeNode b stop
    | token kind name span => exact hasError_closeNode _ _
    | error => exact absurd rfl hfirst

theorem error_notMem_stepsBelow (kinds : KindTable) (ends : List Nat) (rest : List ListedNode) :
    BuildStep.error ∉ Listing.stepsBelow kinds ends rest := by
  induction rest generalizing ends with
  | nil => simp [Listing.stepsBelow]
  | cons n rest ih =>
    intro hmem
    rw [Listing.stepsBelow] at hmem
    rcases List.mem_append.1 hmem with hclosing | hopening
    · obtain ⟨stop, -, hstop⟩ := List.mem_map.1 hclosing
      cases hstop
    · rcases List.mem_cons.1 hopening with hstart | hlater
      · cases hstart
      · exact ih _ hlater

/-- Before the first node is opened there is nothing to agree on. -/
theorem mirrors_of_empty (hsize : b.nodes.size = 0) (hstack : b.stack = []) :
    b.Mirrors kinds nodes where
  labels id n hid := by omega
  closed id n hid := by omega
  deeper c p hparent := by
    rw [nodeAt_eq_default (by omega)] at hparent
    exact nomatch hparent
  top c hc := by omega
  depths k id hid := by
    rw [hstack] at hid
    exact nomatch hid

/-- Replaying a root and the nodes below it opens and closes every one of them. -/
theorem mirrors_run_root {root : ListedNode} {rest : List ListedNode}
    (h : Listing.WellFormed (root :: rest)) (hsize : b.nodes.size = 0) (hstack : b.stack = []) :
    ∃ done, b.run (.start (kinds.kindOf root.name) root.name root.start ::
        (Listing.stepsBelow kinds [] rest ++ [.finish root.stop])) = done ∧
      done.Mirrors kinds (root :: rest) ∧ done.nodes.size = (root :: rest).length ∧
      done.stack = [] ∧ done.hasError = b.hasError := by
  obtain ⟨⟨first, hfirst, hzero⟩, hpositive, hdeepens, hordered⟩ := h
  cases hfirst
  rw [List.tail_cons] at hpositive
  obtain ⟨hsecond, hlater⟩ := List.isChain_cons.1 hdeepens
  rw [hzero] at hsecond
  generalize hopening : b.openNode (kinds.kindOf root.name) root.name root.start = opened
  have hopened : opened.Mirrors kinds (root :: rest) := by
    rw [← hopening]
    exact (mirrors_of_empty hsize hstack).openNode (by rw [hsize]; rfl) (by rw [hstack, hzero]; rfl)
  have hone : opened.nodes.size = 1 := by rw [← hopening, size_openNode, hsize]
  have hopen : opened.stack = [0] := by
    rw [← hopening, ← hsize, ← hstack]
    rfl
  have hrest : (root :: rest).drop opened.nodes.size = rest := by rw [hone]; rfl
  obtain ⟨hbelow, hcount⟩ := hopened.run_stepsBelow hrest List.nil_prefix
    (by rw [hopen]; rfl) hpositive hsecond hlater hordered
  have hleft := stack_run_stepsBelow opened kinds [] rest
  have hmark := hasError_run opened (error_notMem_stepsBelow kinds [] rest)
  generalize hrunning : opened.run (Listing.stepsBelow kinds [] rest) = below
    at hbelow hcount hleft hmark
  have hroot : below.stack = [0] := by rw [hleft, hopen]; rfl
  refine ⟨below.closeNode root.stop, ?_, hbelow.closeNode hroot hordered, ?_, ?_, ?_⟩
  · show (b.openNode (kinds.kindOf root.name) root.name root.start).run _ = _
    rw [hopening, run_append, hrunning]
    rfl
  · rw [nodes_closeNode hroot, size_closeSpan, hcount, hone, List.length_cons]
    omega
  · rw [stack_closeNode, hroot, List.tail_cons]
  · rw [hasError_closeNode, hmark, ← hopening]
    rfl

/-- The builder after the steps of a listing has replayed all nodes, closed them all, and is marked
as the listing is. -/
theorem mirrors_run_steps (revision : Int) (kinds : KindTable) (textLength : Nat)
    {listing : Listing} (h : Listing.WellFormed listing.nodes) :
    ∃ done, (new revision).run (listing.steps kinds textLength) = done ∧
      done.Mirrors kinds (Listing.covering textLength listing.nodes) ∧
      done.nodes.size = listing.nodes.length ∧ done.stack = [] ∧
      done.hasError = listing.hasError := by
  have hcovering := h.covering textLength
  obtain ⟨root, hroot, -⟩ := h.root
  obtain ⟨rest, hnodes⟩ := List.head?_eq_some_iff.1 hroot
  unfold Listing.steps
  rw [hnodes] at hcovering ⊢
  simp only
  rw [run_append]
  generalize hmarking : (new revision).run
    (if listing.hasError then [BuildStep.error] else []) = marked
  have hmarked : marked.nodes.size = 0 ∧ marked.stack = [] ∧
      marked.hasError = listing.hasError := by
    rw [← hmarking]
    cases listing.hasError <;> exact ⟨rfl, rfl, rfl⟩
  obtain ⟨hsize, hstack, hmark⟩ := hmarked
  obtain ⟨done, hrun, hmirrors, hcount, hclosed, hsame⟩ := mirrors_run_root hcovering hsize hstack
  exact ⟨done, hrun, hmirrors, hcount, hclosed, hsame.trans hmark⟩

end Builder

end SelectionGrowth
