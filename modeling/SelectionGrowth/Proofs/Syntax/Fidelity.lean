import SelectionGrowth.Proofs.Syntax.Laminar
import SelectionGrowth.Proofs.Syntax.Mirror

/-!
# Trees keep their listings

The depths of a preorder say which node is the parent of which, without any walk:
a parent is the last node before its child that is less deep. This file reads the
parents, children and siblings of a listing off its depths and shows that the tree
of a listing has the same ones, and that there is a tree exactly when the spans of
the listing nest.

## Main definitions

- `Listing.IsParent`, `Listing.children`, `Listing.IsPreviousSibling` — relatives in a listing
- `Listing.Nests` — each node lies in its parent, and after its previous sibling
- `Builder.Completes` — a builder that has replayed a whole listing

## Main statements

- `Builder.Completes.parent_eq_some_iff`, `Builder.Completes.children_eq` — the links are the same
- `Builder.Completes.nestingFault?_eq_none_iff_nests` — the check finds what does not nest
- `SyntaxTree.ofListing_keeps_listing` — the tree of a listing is the listing
-/

namespace SelectionGrowth

namespace Listing

/-- The start of a node of a listing. -/
def startAt (nodes : List ListedNode) (id : Nat) : Nat :=
  (nodes[id]?).elim 0 ListedNode.start

/-- A node is the parent of a later one that is one deeper, if the nodes between them are all at
least as deep as the later one. -/
def IsParent (nodes : List ListedNode) (p c : Nat) : Prop :=
  c < nodes.length ∧ p < c ∧ depthAt nodes p + 1 = depthAt nodes c ∧
    ∀ j < c, p < j → depthAt nodes c ≤ depthAt nodes j

instance (nodes : List ListedNode) (p c : Nat) : Decidable (IsParent nodes p c) :=
  inferInstanceAs (Decidable (_ ∧ _))

/-- The children of a node, in the order of the listing. -/
def children (nodes : List ListedNode) (p : Nat) : List Nat :=
  (List.range nodes.length).filter (IsParent nodes p)

/-- Two children of one node, with no other child of that node between them. -/
def IsPreviousSibling (nodes : List ListedNode) (a b : Nat) : Prop :=
  a < b ∧ ∃ p, IsParent nodes p a ∧ IsParent nodes p b ∧ ∀ j < b, a < j → ¬ IsParent nodes p j

/-- Every node lies in its parent, and starts where its previous sibling ends or after that. -/
structure Nests (nodes : List ListedNode) : Prop where
  inside : ∀ p c, IsParent nodes p c →
    startAt nodes p ≤ startAt nodes c ∧ stopAt nodes c ≤ stopAt nodes p
  after : ∀ a b, IsPreviousSibling nodes a b → stopAt nodes a ≤ startAt nodes b

/-- A node has one parent at most. -/
theorem IsParent.unique {nodes : List ListedNode} {p q c : Nat} (hp : IsParent nodes p c)
    (hq : IsParent nodes q c) : p = q := by
  obtain ⟨-, hpc, hpdepth, hpbetween⟩ := hp
  obtain ⟨-, hqc, hqdepth, hqbetween⟩ := hq
  rcases Nat.lt_trichotomy p q with hlt | heq | hlt
  · have := hpbetween q hqc hlt
    omega
  · exact heq
  · have := hqbetween p hpc hlt
    omega

@[simp]
theorem depthAt_covering (textLength : Nat) (nodes : List ListedNode) (id : Nat) :
    depthAt (covering textLength nodes) id = depthAt nodes id := by
  cases nodes with
  | nil => rfl
  | cons root rest => cases id <;> rfl

@[simp]
theorem isParent_covering (textLength : Nat) (nodes : List ListedNode) (p c : Nat) :
    IsParent (covering textLength nodes) p c ↔ IsParent nodes p c := by
  simp [IsParent]

theorem mem_children_iff {nodes : List ListedNode} {p c : Nat} :
    c ∈ children nodes p ↔ IsParent nodes p c := by
  rw [children, List.mem_filter, List.mem_range, decide_eq_true_iff]
  exact ⟨fun h => h.2, fun h => ⟨h.1, h⟩⟩

@[simp]
theorem children_covering (textLength : Nat) (nodes : List ListedNode) (p : Nat) :
    children (covering textLength nodes) p = children nodes p := by
  simp [children]

theorem length_stepsBelow (kinds : KindTable) (ends : List Nat) (rest : List ListedNode) :
    (stepsBelow kinds ends rest).length = ends.length + 2 * rest.length := by
  induction rest generalizing ends with
  | nil => simp [stepsBelow]
  | cons n rest ih =>
    simp only [stepsBelow, List.length_append, List.length_map, List.length_take, List.length_cons,
      ih, List.length_drop]
    omega

/-- Replaying a listing takes two steps for each node, and one for the mark. -/
theorem length_steps (kinds : KindTable) (textLength : Nat) (listing : Listing) :
    (listing.steps kinds textLength).length =
      2 * listing.nodes.length + if listing.hasError then 1 else 0 := by
  unfold steps
  cases listing.nodes <;> cases listing.hasError <;> simp [length_stepsBelow] <;> omega

/-- Only the root has depth zero. -/
theorem WellFormed.eq_zero_of_depthAt {nodes : List ListedNode} (h : WellFormed nodes) {id : Nat}
    (hid : id < nodes.length) (hdepth : depthAt nodes id = 0) : id = 0 := by
  cases id with
  | zero => rfl
  | succ id =>
    have hmem : nodes.get ⟨id + 1, hid⟩ ∈ nodes.tail := by
      rw [List.mem_iff_getElem?]
      exact ⟨id, by rw [List.getElem?_tail]; exact List.getElem?_eq_getElem hid⟩
    have hpositive := h.below _ hmem
    rw [depthAt, List.getElem?_eq_getElem hid] at hdepth
    exact absurd hdepth (Nat.ne_of_gt hpositive)

end Listing

/-- In an increasing list, what holds of neighbours in the list holds of it as a chain. -/
theorem isChain_of_neighbours {R : Nat → Nat → Prop} {ids : List Nat}
    (hincreasing : ids.Pairwise (· < ·))
    (h : ∀ a ∈ ids, ∀ b ∈ ids, a < b → (∀ j < b, a < j → j ∉ ids) → R a b) : ids.IsChain R := by
  induction ids with
  | nil => exact List.isChain_nil
  | cons a ids ih =>
    obtain ⟨hfirst, hrest⟩ := List.pairwise_cons.1 hincreasing
    refine List.isChain_cons.2 ⟨fun b hb => ?_, ih hrest fun c hc d hd hcd hnone => ?_⟩
    · have hmem := List.mem_of_head? hb
      refine h a List.mem_cons_self b (List.mem_cons_of_mem a hmem) (hfirst b hmem) ?_
      -- the head of what follows is the least member after the first
      intro j hjb haj hj
      rcases List.mem_cons.1 hj with rfl | hj
      · exact Nat.lt_irrefl j haj
      · obtain ⟨later, rfl⟩ := List.head?_eq_some_iff.1 hb
        rcases List.mem_cons.1 hj with rfl | hlater
        · exact Nat.lt_irrefl j hjb
        · exact Nat.lt_asymm hjb ((List.pairwise_cons.1 hrest).1 j hlater)
    · refine h c (List.mem_cons_of_mem a hc) d (List.mem_cons_of_mem a hd) hcd ?_
      intro j hjd hcj hj
      rcases List.mem_cons.1 hj with rfl | hj
      · exact Nat.lt_asymm hcj (hfirst c hc)
      · exact hnone j hjd hcj hj

namespace Builder

variable {kinds : KindTable} {nodes : List ListedNode} {b : Builder}

/-- A builder that has opened and closed every node of a listing. -/
structure Completes (kinds : KindTable) (nodes : List ListedNode) (b : Builder) : Prop
    extends b.Mirrors kinds nodes, b.Threaded where
  paired : Paired b.nodes
  size : b.nodes.size = nodes.length
  finished : b.stack = []

namespace Completes

theorem span_start (h : b.Completes kinds nodes) {id : Nat} (hid : id < b.nodes.size) :
    (nodeAt b.nodes id).span.start = Listing.startAt nodes id := by
  have hn := List.getElem?_eq_getElem (h.size ▸ hid)
  rw [(h.labels id _ hid hn).2.2, Listing.startAt, hn]
  rfl

theorem span_stop (h : b.Completes kinds nodes) {id : Nat} (hid : id < b.nodes.size) :
    (nodeAt b.nodes id).span.stop = Listing.stopAt nodes id := by
  have hn := List.getElem?_eq_getElem (h.size ▸ hid)
  rw [h.closed id _ hid (h.finished ▸ List.not_mem_nil) hn, Listing.stopAt, hn]
  rfl

/-- A node above another is less deep. -/
theorem depthAt_lt_of_wayUp (h : b.Completes kinds nodes) {id a : Nat} (hup : WayUp b.nodes id a)
    (hne : a ≠ id) : Listing.depthAt nodes a < Listing.depthAt nodes id := by
  have hle : ∀ {c}, WayUp b.nodes id c → Listing.depthAt nodes c ≤ Listing.depthAt nodes id := by
    intro c hc
    induction hc with
    | refl => exact Nat.le_refl _
    | tail _ hparent ih =>
      have := h.deeper _ _ hparent
      omega
  obtain ⟨c, hparent, hrest⟩ := hup.exists_child hne
  have hdeeper := h.deeper c a hparent
  have := hle hrest
  omega

/-- The parent that a node was opened under is the one that the depths give it. -/
theorem parent_eq_some_iff (h : b.Completes kinds nodes) {p c : Nat} :
    (nodeAt b.nodes c).parent = some p ↔ Listing.IsParent nodes p c := by
  have hgives : ∀ {q}, (nodeAt b.nodes c).parent = some q → Listing.IsParent nodes q c := by
    intro q hparent
    have hdeeper := h.deeper c q hparent
    refine ⟨h.size ▸ lt_size_of_parent hparent, b.linked.parent_lt c q hparent, hdeeper, ?_⟩
    -- what was opened between a node and its parent lies below that parent
    intro j hjc hqj
    have hup : WayUp b.nodes j q := h.numbered.wayUp_of_between
      (Relation.ReflTransGen.single hparent) (Nat.le_of_lt hqj) (Nat.le_of_lt hjc)
    have := h.depthAt_lt_of_wayUp hup (Nat.ne_of_lt hqj)
    omega
  refine ⟨hgives, fun hp => ?_⟩
  cases hparent : (nodeAt b.nodes c).parent with
  | none =>
    have htop := h.top c (h.size ▸ hp.1) hparent
    have hdeeper := hp.2.2.1
    omega
  | some q => rw [(hgives hparent).unique hp]

theorem mem_children_iff (h : b.Completes kinds nodes) {p c : Nat} :
    c ∈ (nodeAt b.nodes p).children ↔ Listing.IsParent nodes p c :=
  (h.paired p c).trans h.parent_eq_some_iff

/-- The children of a node are those of the listing, in its order. -/
theorem children_eq (h : b.Completes kinds nodes) (p : Nat) :
    (nodeAt b.nodes p).children = Listing.children nodes p := by
  refine (h.numbered.increasing p).eq_of_mem_iff (List.pairwise_lt_range.filter _) fun c => ?_
  exact h.mem_children_iff.trans Listing.mem_children_iff.symm

/-- The check of a builder finds a fault exactly when the spans of the listing do not nest. -/
theorem nestingFault?_eq_none_iff_nests (h : b.Completes kinds nodes) :
    nestingFault? b.nodes = none ↔ Listing.Nests nodes := by
  have hsize : ∀ {p c}, Listing.IsParent nodes p c → c < b.nodes.size :=
    fun hc => h.size ▸ hc.1
  rw [nestingFault?_eq_none_iff]
  constructor
  · intro hpasses
    refine ⟨fun p c hc => ?_, fun x y hxy => ?_⟩
    · have hcontains := (hpasses p).1 c (h.mem_children_iff.2 hc)
      have hp : p < b.nodes.size := Nat.lt_trans hc.2.1 (hsize hc)
      rw [Span.Contains, h.span_start hp, h.span_stop hp, h.span_start (hsize hc),
        h.span_stop (hsize hc)] at hcontains
      exact hcontains
    · obtain ⟨hlt, p, hx, hy, -⟩ := hxy
      have hbefore := endsBefore_of_isChain (h.numbered.increasing p) (hpasses p).2
        (h.mem_children_iff.2 hx) (h.mem_children_iff.2 hy) hlt
      rw [EndsBefore, h.span_start (hsize hy), h.span_stop (hsize hx)] at hbefore
      exact hbefore
  · intro hnests p
    refine ⟨fun c hc => ?_, isChain_of_neighbours (h.numbered.increasing p) ?_⟩
    · have hparent := h.mem_children_iff.1 hc
      have hp : p < b.nodes.size := Nat.lt_trans hparent.2.1 (hsize hparent)
      rw [Span.Contains, h.span_start hp, h.span_stop hp, h.span_start (hsize hparent),
        h.span_stop (hsize hparent)]
      exact hnests.inside p c hparent
    · intro x hx y hy hxy hnone
      have hx := h.mem_children_iff.1 hx
      have hy := h.mem_children_iff.1 hy
      rw [EndsBefore, h.span_start (hsize hy), h.span_stop (hsize hx)]
      refine hnests.after x y ⟨hxy, p, hx, hy, fun j hjy hxj hj => ?_⟩
      exact hnone j hjy hxj (h.mem_children_iff.2 hj)

/-- Parent links lead from every node to the first one. -/
theorem wayUp_zero (h : b.Completes kinds nodes) (hwell : Listing.WellFormed nodes) {id : Nat}
    (hid : id < b.nodes.size) : WayUp b.nodes id 0 := by
  induction id using Nat.strongRecOn with
  | ind id ih =>
    cases hparent : (nodeAt b.nodes id).parent with
    | none =>
      rw [hwell.eq_zero_of_depthAt (h.size ▸ hid) (h.top id hid hparent)]
      exact Relation.ReflTransGen.refl
    | some p =>
      have hlt := b.linked.parent_lt id p hparent
      exact (ih p hlt (Nat.lt_trans hlt hid)).head hparent

end Completes

/-- After all steps of a listing the builder has opened and closed every node, in order. -/
theorem exists_completes_run_steps (kinds : KindTable) (textLength : Nat) (revision : Int)
    {listing : Listing} (h : Listing.WellFormed listing.nodes) :
    ∃ done, (new revision).run (listing.steps kinds textLength) = done ∧
      done.Completes kinds (Listing.covering textLength listing.nodes) ∧
      done.hasError = listing.hasError := by
  obtain ⟨done, hrun, hmirrors, hsize, hstack, hmark⟩ :=
    mirrors_run_steps revision kinds textLength h
  refine ⟨done, hrun, ⟨hmirrors, ?_, ?_, ?_, hstack⟩, hmark⟩
  · exact hrun ▸ threaded_run revision _
  · exact hrun ▸ paired_run revision _
  · rw [hsize, Listing.length_covering]

end Builder

namespace SyntaxTree

variable {kinds : KindTable} {textLength : Nat} {revision : Int} {listing : Listing}

/-- The builder of a listing is accepted exactly when the spans of the listing nest. -/
theorem accepted_iff_nests (h : Listing.WellFormed listing.nodes) :
    ((Builder.new revision).run (listing.steps kinds textLength)).Accepted ↔
      Listing.Nests (Listing.covering textLength listing.nodes) := by
  obtain ⟨done, hrun, hdone, -⟩ := Builder.exists_completes_run_steps kinds textLength revision h
  obtain ⟨root, hroot, -⟩ := h.root
  obtain ⟨rest, hnodes⟩ := List.head?_eq_some_iff.1 hroot
  have hsize : 0 < done.nodes.size := by
    rw [hdone.size, Listing.length_covering, hnodes]
    exact Nat.succ_pos _
  have hstart : (nodeAt done.nodes 0).span.start = 0 := by
    rw [hdone.span_start hsize, hnodes]
    rfl
  rw [hrun, ← hdone.nestingFault?_eq_none_iff_nests]
  exact ⟨Builder.Accepted.nested, fun hfault =>
    ⟨Nat.ne_of_gt hsize, hdone.finished, hstart, hfault⟩⟩

/--
The tree of a listing is the listing. For any preorder of a parse, whatever its
shape, replaying it takes two steps for each node. It gives a tree exactly when
every node lies in its parent and after its previous sibling, with a root that
covers the text, and fails with a fault of the parse otherwise. The tree has the
nodes of the listing under their own numbers, all of them below the root, with the
names, spans, parents and children that the listing gives them.
-/
theorem ofListing_keeps_listing (kinds : KindTable) (textLength : Nat) (revision : Int)
    {listing : Listing} (h : Listing.WellFormed listing.nodes) :
    (listing.steps kinds textLength).length =
      2 * listing.nodes.length + (if listing.hasError then 1 else 0) ∧
    ((∃ t, SyntaxTree.ofListing kinds textLength revision listing = .ok t) ↔
      Listing.Nests (Listing.covering textLength listing.nodes)) ∧
    (¬ Listing.Nests (Listing.covering textLength listing.nodes) → ∃ fault,
      SyntaxTree.ofListing kinds textLength revision listing = .error (.unparseable fault)) ∧
    ∀ t, SyntaxTree.ofListing kinds textLength revision listing = .ok t →
      t.revision = revision ∧ t.hasError = listing.hasError ∧
      t.nodeCount = listing.nodes.length ∧ (∀ id < listing.nodes.length, t.Reachable id) ∧
      t.preorder rootId = List.range listing.nodes.length ∧
      (∀ id n, (Listing.covering textLength listing.nodes)[id]? = some n →
        (t.node id).kind = kinds.kindOf n.name ∧ (t.node id).name = n.name ∧
          (t.span id).start = n.start ∧ (t.span id).stop = n.stop) ∧
      (∀ p c, (t.node c).parent = some p ↔ Listing.IsParent listing.nodes p c) ∧
      ∀ p, (t.node p).children = Listing.children listing.nodes p := by
  have hcases := ((Builder.new revision).run (listing.steps kinds textLength)).finish_cases
  rw [accepted_iff_nests h] at hcases
  rw [ofListing_eq_build]
  refine ⟨Listing.length_steps kinds textLength listing, ⟨?_, fun hnests => ?_⟩, fun hnot => ?_,
    fun t ht => ?_⟩
  · rintro ⟨t, ht⟩
    exact (accepted_iff_nests h).1 (Builder.of_finish ht).2
  · obtain ⟨-, t, ht, -⟩ := hcases.resolve_right fun hnot => hnot.1 hnests
    exact ⟨t, ht⟩
  · exact (hcases.resolve_left fun hnests => hnot hnests.1).2
  · obtain ⟨done, hrun, hdone, hmark⟩ :=
      Builder.exists_completes_run_steps kinds textLength revision h
    obtain ⟨⟨hnodes, -, herror⟩, -⟩ := Builder.of_finish ht
    rw [hrun] at hnodes herror
    have hnode : ∀ id, t.node id = nodeAt done.nodes id := fun id => by rw [node, hnodes]
    have hcount : t.nodeCount = listing.nodes.length := by
      rw [nodeCount, hnodes, hdone.size, Listing.length_covering]
    have hpaired : Paired t.nodes := hnodes ▸ hdone.paired
    have hreach : ∀ id < listing.nodes.length, t.Reachable id := by
      intro id hid
      rw [reachable_iff_wayUp hpaired, hnodes]
      refine hdone.wayUp_zero (h.covering textLength) ?_
      rw [← hnodes]
      exact Nat.lt_of_lt_of_eq hid hcount.symm
    have hwalk : t.preorder rootId = List.range listing.nodes.length :=
      preorder_eq_range hpaired (hnodes ▸ hdone.numbered) fun id =>
        ⟨fun hid => Nat.lt_of_lt_of_eq hid.lt_nodeCount hcount, hreach id⟩
    refine ⟨revision_of_build ht, herror.trans hmark, hcount, hreach, hwalk, ?_, ?_, ?_⟩
    · intro id n hn
      have hid : id < done.nodes.size := by
        rw [hdone.size]
        exact (List.getElem?_eq_some_iff.1 hn).1
      obtain ⟨hkind, hname, hstart⟩ := hdone.labels id n hid hn
      have hstop := hdone.closed id n hid (hdone.finished ▸ List.not_mem_nil) hn
      rw [span, hnode]
      exact ⟨hkind, hname, hstart, hstop⟩
    · intro p c
      rw [hnode, hdone.parent_eq_some_iff, Listing.isParent_covering]
    · intro p
      rw [hnode, hdone.children_eq, Listing.children_covering]

/-- A parse with blanks around its root, a node without text, and a last node that lies beyond the
root. -/
def blankedListing : Listing where
  hasError := true
  nodes := [⟨0, "program", 2, 9⟩, ⟨1, "block", 2, 6⟩, ⟨2, "empty", 3, 3⟩, ⟨2, "name", 3, 5⟩,
    ⟨1, "semicolon", 6, 11⟩]

def blockKinds : KindTable :=
  Table.ofList [("block", .block)]

theorem wellFormed_blankedListing : Listing.WellFormed blankedListing.nodes :=
  ⟨⟨_, rfl, rfl⟩, by decide, by simp [blankedListing], by decide⟩

/-- In a text of twelve bytes the parse has a tree, whose root covers the text; in a text of eight
the semicolon lies outside of the root. -/
theorem ofListing_of_blankedListing : Listing.WellFormed blankedListing.nodes ∧
    (∃ t, SyntaxTree.ofListing blockKinds 12 7 blankedListing = .ok t ∧
      t.revision = 7 ∧ t.hasError = true ∧ t.preorder rootId = [0, 1, 2, 3, 4] ∧
      (t.node 1).kind = .block ∧ (t.span 0).stop = 12 ∧ (t.span 3).stop = 5 ∧
      (t.node 4).parent = some 0 ∧ (t.node 1).children = [2, 3]) ∧
    ∃ fault, SyntaxTree.ofListing blockKinds 8 7 blankedListing =
      .error (.unparseable fault) := by
  have hwell := wellFormed_blankedListing
  refine ⟨hwell, ?_, ?_⟩
  · have hcheck : (SyntaxTree.ofListing blockKinds 12 7 blankedListing).map
        (fun _ => ()) = .ok () := by
      decide +kernel
    obtain ⟨t, ht, -⟩ := exists_of_map_eq_ok hcheck
    obtain ⟨-, -, -, hkeeps⟩ := ofListing_keeps_listing blockKinds 12 7 hwell
    obtain ⟨hrevision, hmark, -, -, hwalk, hlabels, hparent, hchildren⟩ := hkeeps t ht
    exact ⟨t, ht, hrevision, hmark, hwalk, (hlabels 1 _ rfl).1, (hlabels 0 _ rfl).2.2.2,
      (hlabels 3 _ rfl).2.2.2, (hparent 0 4).2 (by decide), hchildren 1⟩
  · obtain ⟨-, -, hfails, -⟩ := ofListing_keeps_listing blockKinds 8 7 hwell
    refine hfails fun hnests => ?_
    have hinside := hnests.inside 0 4 (by decide)
    exact absurd hinside.2 (by decide)

end SyntaxTree

end SelectionGrowth
