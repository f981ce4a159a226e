import SelectionGrowth.Proofs.Selection.Growth
import SelectionGrowth.Proofs.Syntax.Laminar

/-!
# The anchor of a selection

The anchor is looked up from the root downwards, by the first covering child of
each node. Siblings do not overlap, so at most one of them covers a selection,
and the descent passes every covering node of the tree. The nodes that cover a
selection are therefore the anchor and the nodes above it.

## Main definitions

- `Span.byteAt` — the one byte after a caret
- `SyntaxTree.Covering` — the nodes that cover a selection, at the end of the document too

## Main statements

- `SyntaxTree.Ordered.eq_of_covers` — at most one child of a node covers a selection
- `SyntaxTree.Ordered.wayUp_anchor_iff` — the covering nodes are the anchor and those above it
- `SyntaxTree.Ordered.anchor_at_boundary` — between two siblings the right one counts
- `SyntaxTree.anchor_of_build` — the anchor of every selection of a finished tree
-/

namespace SelectionGrowth

/-- The span of the byte at an offset. -/
def Span.byteAt (offset : Nat) : Span :=
  ⟨offset, offset + 1, Nat.le_succ offset⟩

namespace Covers

variable {outer inner current : Span}

/-- A span covers a selection if it contains the selection and the byte at its start. -/
theorem iff_contains_and_lt :
    Covers outer current ↔ outer.Contains current ∧ current.start < outer.stop := by
  have hordered := current.ordered
  unfold Covers
  split
  · next hcaret =>
    unfold Span.IsCaret at hcaret
    unfold Span.Contains
    omega
  · next hwide =>
    unfold Span.IsCaret at hwide
    unfold Span.Contains
    omega

theorem iff_contains (hwide : ¬ current.IsCaret) :
    Covers outer current ↔ outer.Contains current := by
  unfold Covers
  rw [if_neg hwide]

theorem of_contains (hwide : ¬ current.IsCaret) (h : outer.Contains current) :
    Covers outer current :=
  (iff_contains hwide).2 h

theorem caret_iff {offset : Nat} :
    Covers outer (Span.caret offset) ↔ outer.start ≤ offset ∧ offset < outer.stop := by
  rw [iff_contains_and_lt]
  show (outer.start ≤ offset ∧ offset ≤ outer.stop) ∧ offset < outer.stop ↔ _
  omega

theorem byteAt_iff {offset : Nat} :
    Covers outer (Span.byteAt offset) ↔ outer.start ≤ offset ∧ offset < outer.stop := by
  rw [iff_contains_and_lt]
  show (outer.start ≤ offset ∧ offset + 1 ≤ outer.stop) ∧ offset < outer.stop ↔ _
  omega

/-- What contains a covering span covers too. -/
theorem mono (h : Covers inner current) (hcontains : outer.Contains inner) :
    Covers outer current := by
  obtain ⟨hinner, hlt⟩ := iff_contains_and_lt.1 h
  exact iff_contains_and_lt.2 ⟨hcontains.trans hinner, Nat.lt_of_lt_of_le hlt hcontains.2⟩

/-- A span that ends before another starts does not cover the same selection. -/
theorem start_lt_stop {other : Span} (h : Covers outer current) (hother : Covers other current) :
    other.start < outer.stop :=
  Nat.lt_of_le_of_lt hother.contains.1 (iff_contains_and_lt.1 h).2

/-- A span without bytes covers nothing. -/
theorem not_isCaret (h : Covers outer current) : ¬ outer.IsCaret :=
  Nat.ne_of_lt (h.start_lt_stop h)

end Covers

namespace SyntaxTree

variable {t : SyntaxTree} {current : Span}

-- ════════════════════════════════════════════════════════════════════════
-- The descent
-- ════════════════════════════════════════════════════════════════════════

/-- At most one of the children of a node covers a selection. -/
theorem Ordered.eq_of_covers (h : t.Ordered) {p a b : Nat} (ha : a ∈ (t.node p).children)
    (hb : b ∈ (t.node p).children) (hacovers : Covers (t.span a) current)
    (hbcovers : Covers (t.span b) current) : a = b := by
  rcases Nat.lt_trichotomy a b with hlt | heq | hlt
  · have hbefore : (t.span a).stop ≤ (t.span b).start := h.endsBefore_of_siblings ha hb hlt
    exact absurd hbefore (Nat.not_le.2 (hacovers.start_lt_stop hbcovers))
  · exact heq
  · have hbefore : (t.span b).stop ≤ (t.span a).start := h.endsBefore_of_siblings hb ha hlt
    exact absurd hbefore (Nat.not_le.2 (hbcovers.start_lt_stop hacovers))

/-- A descent that starts above or below a covering node ends below it. -/
theorem Ordered.wayUp_descend (h : t.Ordered) {a : Nat} (hcovers : Covers (t.span a) current)
    {id : Nat} (hid : WayUp t.nodes a id ∨ WayUp t.nodes id a) :
    WayUp t.nodes (t.descend current id) a := by
  -- the child that leads on to the node covers the selection, so the descent finds it
  have hchild : ∀ id, WayUp t.nodes a id → id ≠ a → ∃ c ∈ (t.node id).children,
      Covers (t.span c) current ∧ WayUp t.nodes a c := by
    intro id hup hne
    obtain ⟨c, hparent, hrest⟩ := hup.exists_child hne
    exact ⟨c, (h.paired id c).2 hparent, hcovers.mono (h.contains_of_wayUp hrest), hrest⟩
  fun_induction descend t current id with
  | case1 id hnone =>
    rcases hid with hbelow | habove
    · by_cases heq : id = a
      · rw [heq]
        exact Relation.ReflTransGen.refl
      · obtain ⟨c, hc, hccovers, -⟩ := hchild id hbelow heq
        exact absurd (decide_eq_true hccovers) (List.find?_eq_none.1 hnone c hc)
    · exact habove
  | case2 id child hfound hlt ih =>
    have hmem := List.mem_of_find?_eq_some hfound
    have hparent : (t.node child).parent = some id := (h.paired id child).1 hmem
    refine ih ?_
    rcases hid with hbelow | habove
    · by_cases heq : id = a
      · right
        rw [← heq]
        exact Relation.ReflTransGen.single hparent
      · obtain ⟨c, hc, hccovers, hrest⟩ := hchild id hbelow heq
        have hcovers : Covers (t.span child) current := by simpa using List.find?_some hfound
        rw [h.eq_of_covers hmem hc hcovers hccovers]
        exact Or.inl hrest
    · exact Or.inr (habove.head hparent)

/-- Every node that covers a selection lies above the anchor, or is the anchor. -/
theorem Ordered.wayUp_anchor (h : t.Ordered) {a : Nat} (ha : t.Reachable a)
    (hcovers : Covers (t.span a) current) : WayUp t.nodes (t.anchor current) a :=
  h.wayUp_descend hcovers (Or.inl ((reachable_iff_wayUp h.paired).1 ha))

/-- Before the end of the document the root covers a selection, and hence the anchor does. -/
theorem Nested.anchor_covers (h : t.Nested) (hle : current.stop ≤ t.length)
    (hne : current ≠ Span.caret t.length) : Covers (t.span (t.anchor current)) current := by
  refine descend_of_invariant (P := fun id => Covers (t.span id) current)
    (fun _ _ _ _ hcovers => hcovers) ?_
  have hbefore : current.start ≠ t.length := by
    intro heq
    exact hne (Span.ext heq (Nat.le_antisymm hle (heq ▸ current.ordered)))
  exact Covers.iff_contains_and_lt.2 ⟨h.root_contains_of_le hle,
    Nat.lt_of_le_of_ne (Nat.le_trans current.ordered hle) hbefore⟩

/-- No node holds a byte after the last one. -/
theorem Nested.not_covers_caret_length (h : t.Nested) {id : Nat} (hid : t.Reachable id) :
    ¬ Covers (t.span id) (Span.caret t.length) := by
  intro hcovers
  have hstop : (t.span id).stop ≤ t.length := (h.root_contains hid).2
  exact Nat.not_lt.2 hstop (Covers.caret_iff.1 hcovers).2

/-- The caret at the end of the document is anchored at the root. -/
theorem Nested.anchor_caret_length (h : t.Nested) : t.anchor (Span.caret t.length) = rootId := by
  unfold anchor
  rw [descend]
  split
  · rfl
  · next child hfound =>
    have hreach : t.Reachable child := Reachable.root.child (List.mem_of_find?_eq_some hfound)
    have hcovers : Covers (t.span child) (Span.caret t.length) := by
      simpa using List.find?_some hfound
    exact absurd hcovers (h.not_covers_caret_length hreach)

-- ════════════════════════════════════════════════════════════════════════
-- Covering nodes
-- ════════════════════════════════════════════════════════════════════════

/-- A node covers a selection. There is no byte after the end of the document, and only the root
covers the caret there. -/
def Covering (t : SyntaxTree) (current : Span) (id : Nat) : Prop :=
  if current = Span.caret t.length then id = rootId else Covers (t.span id) current

theorem covering_of_ne (hne : current ≠ Span.caret t.length) {id : Nat} :
    t.Covering current id ↔ Covers (t.span id) current := by
  unfold Covering
  rw [if_neg hne]

theorem covering_caret_length {id : Nat} : t.Covering (Span.caret t.length) id ↔ id = rootId := by
  unfold Covering
  rw [if_pos rfl]

theorem covering_iff_contains (hwide : ¬ current.IsCaret) {id : Nat} :
    t.Covering current id ↔ (t.span id).Contains current := by
  have hne : current ≠ Span.caret t.length := by
    rintro rfl
    exact hwide rfl
  rw [covering_of_ne hne, Covers.iff_contains hwide]

/-- Nodes other than the root cover carets by their bytes alone. -/
theorem Nested.covering_caret_iff (h : t.Nested) {id offset : Nat} (hid : t.Reachable id)
    (hne : offset < t.length ∨ id ≠ rootId) : t.Covering (Span.caret offset) id ↔
      (t.span id).start ≤ offset ∧ offset < (t.span id).stop := by
  rw [← Covers.caret_iff]
  by_cases hend : offset = t.length
  · rw [hend, covering_caret_length]
    refine ⟨fun hroot => ?_, fun hcovers => absurd hcovers (h.not_covers_caret_length hid)⟩
    exact absurd hroot (hne.resolve_left (Nat.not_lt.2 (Nat.le_of_eq hend.symm)))
  · exact covering_of_ne fun heq => hend (congrArg Span.start heq)

/-- The nodes that cover a selection are the anchor and the nodes above it. -/
theorem Ordered.wayUp_anchor_iff (h : t.Ordered) (hle : current.stop ≤ t.length) {id : Nat} :
    WayUp t.nodes (t.anchor current) id ↔ t.Reachable id ∧ t.Covering current id := by
  by_cases hend : current = Span.caret t.length
  · rw [hend, h.anchor_caret_length, covering_caret_length]
    constructor
    · intro hup
      have hroot : id = rootId := Nat.le_zero.1 (hup.le t.linked)
      exact ⟨hroot ▸ Reachable.root, hroot⟩
    · rintro ⟨-, rfl⟩
      exact Relation.ReflTransGen.refl
  · rw [covering_of_ne hend]
    constructor
    · intro hup
      exact ⟨h.reachable_of_wayUp (t.reachable_anchor current) hup,
        (h.anchor_covers hle hend).mono (h.contains_of_wayUp hup)⟩
    · rintro ⟨hid, hcovers⟩
      exact h.wayUp_anchor hid hcovers

/-- Selections that are covered by the same nodes have the same anchor. -/
theorem Ordered.anchor_congr (h : t.Ordered) {other : Span} (hle : current.stop ≤ t.length)
    (hother : other.stop ≤ t.length)
    (hsame : ∀ id, t.Reachable id → (t.Covering current id ↔ t.Covering other id)) :
    t.anchor current = t.anchor other := by
  have hup : ∀ id, WayUp t.nodes (t.anchor current) id ↔ WayUp t.nodes (t.anchor other) id := by
    intro id
    rw [h.wayUp_anchor_iff hle, h.wayUp_anchor_iff hother]
    exact and_congr_right (hsame id)
  have hge := ((hup _).1 Relation.ReflTransGen.refl).le t.linked
  have hle := ((hup _).2 Relation.ReflTransGen.refl).le t.linked
  exact Nat.le_antisymm hge hle

/-- At the boundary of two siblings the anchor never lies in the left one, and lies in the right one
unless that has no bytes. -/
theorem Ordered.anchor_at_boundary (h : t.Ordered) {p left right offset : Nat}
    (hp : t.Reachable p) (hleft : left ∈ (t.node p).children)
    (hright : right ∈ (t.node p).children) (hstop : (t.span left).stop = offset)
    (hstart : (t.span right).start = offset) :
    ¬ WayUp t.nodes (t.anchor (Span.caret offset)) left ∧
    (WayUp t.nodes (t.anchor (Span.caret offset)) right ↔ ¬ (t.span right).IsCaret) := by
  have hordered := (t.span right).ordered
  have hle : offset ≤ t.length := by
    have hwithin : (t.span right).stop ≤ t.length := (h.root_contains (hp.child hright)).2
    omega
  have hchild : ∀ c ∈ (t.node p).children, WayUp t.nodes (t.anchor (Span.caret offset)) c ↔
      (t.span c).start ≤ offset ∧ offset < (t.span c).stop := by
    intro c hc
    have hroot : c ≠ rootId := Nat.ne_zero_of_lt (t.linked.child_lt p c hc).1
    rw [h.wayUp_anchor_iff hle, h.covering_caret_iff (hp.child hc) (Or.inr hroot)]
    exact and_iff_right (hp.child hc)
  rw [hchild left hleft, hchild right hright]
  unfold Span.IsCaret
  omega

/-- An anchor without bytes is found in an empty document only. -/
theorem Nested.length_eq_zero_of_isCaret_anchor (h : t.Nested) (hle : current.stop ≤ t.length)
    (hempty : (t.span (t.anchor current)).IsCaret) : t.length = 0 := by
  by_cases hend : current = Span.caret t.length
  · rw [hend, h.anchor_caret_length] at hempty
    exact hempty.symm.trans h.root_start
  · exact absurd hempty (h.anchor_covers hle hend).not_isCaret

/--
The anchor of a selection within a tree that a builder finishes. It can be
reached from the root. The nodes around a selection with bytes are exactly the
anchor and its ancestors. For a caret before the end these are exactly the nodes
that hold the byte after it, and that byte has the same anchor. The caret at the
end is anchored at the root. At the boundary of two siblings the anchor never
lies in the left one, and lies in the right one unless that has no bytes. Nodes
without bytes are no anchors, but for those of an empty document.
-/
theorem anchor_of_build {revision : Int} {steps : List BuildStep} {t : SyntaxTree}
    (h : SyntaxTree.build revision steps = .ok t) :
    (∀ current, t.Reachable (t.anchor current)) ∧
    (∀ current : Span, ¬ current.IsCaret → current.stop ≤ t.length → ∀ id,
      t.Reachable id ∧ (t.span id).Contains current ↔
        id = t.anchor current ∨ id ∈ t.ancestors (t.anchor current)) ∧
    (∀ offset < t.length,
      (∀ id, t.Reachable id ∧ (t.span id).start ≤ offset ∧ offset < (t.span id).stop ↔
        id = t.anchor (Span.caret offset) ∨ id ∈ t.ancestors (t.anchor (Span.caret offset))) ∧
      t.anchor (Span.caret offset) = t.anchor (Span.byteAt offset)) ∧
    t.anchor (Span.caret t.length) = rootId ∧
    (∀ p left right offset, t.Reachable p → left ∈ (t.node p).children →
      right ∈ (t.node p).children → (t.span left).stop = offset → (t.span right).start = offset →
      ¬ WayUp t.nodes (t.anchor (Span.caret offset)) left ∧
      (WayUp t.nodes (t.anchor (Span.caret offset)) right ↔ ¬ (t.span right).IsCaret)) ∧
    ∀ current : Span, current.stop ≤ t.length → (t.span (t.anchor current)).IsCaret →
      t.length = 0 := by
  have ho := ordered_of_build h
  have hn := ho.toNested
  refine ⟨t.reachable_anchor, ?_, ?_, hn.anchor_caret_length, ?_,
    fun current => hn.length_eq_zero_of_isCaret_anchor⟩
  · intro current hwide hle id
    rw [← wayUp_iff, ho.wayUp_anchor_iff hle, covering_iff_contains hwide]
  · intro offset hlt
    have hbyte : (Span.byteAt offset).stop ≤ t.length := hlt
    refine ⟨fun id => ?_, ho.anchor_congr (Nat.le_of_lt hlt) hbyte fun id hid => ?_⟩
    · rw [← wayUp_iff, ho.wayUp_anchor_iff (Nat.le_of_lt hlt)]
      exact and_congr_right fun hid => (hn.covering_caret_iff hid (Or.inl hlt)).symm
    · rw [hn.covering_caret_iff hid (Or.inl hlt), ← Covers.byteAt_iff, covering_of_ne]
      exact fun heq => Nat.ne_of_lt hlt (congrArg Span.start heq)
  · intro p left right offset hp hleft hright hstop hstart
    exact ho.anchor_at_boundary hp hleft hright hstop hstart

/-- The caret between the name of the call and its arguments is anchored at the arguments, like the
byte after it. -/
theorem anchor_of_wrappedCall : ∃ t, SyntaxTree.build 0 wrappedCallSteps = .ok t ∧
    1 < t.length ∧ t.anchor (Span.caret 1) = 5 ∧ t.anchor (Span.byteAt 1) = 5 ∧
    (∀ id, t.Reachable id ∧ (t.span id).start ≤ 1 ∧ 1 < (t.span id).stop ↔
      id = 5 ∨ id ∈ [3, 2, 0]) ∧
    4 ∈ (t.node 3).children ∧ 5 ∈ (t.node 3).children ∧
    ¬ WayUp t.nodes 5 4 ∧ ¬ (t.span (t.anchor (Span.caret 0))).IsCaret := by
  have hcheck : (SyntaxTree.build 0 wrappedCallSteps).map (fun t => decide
      (1 < t.length ∧ t.anchor (Span.caret 1) = 5 ∧ t.ancestors 5 = [3, 2, 0] ∧
        4 ∈ (t.node 3).children ∧ 5 ∈ (t.node 3).children ∧ (t.span 4).stop = 1 ∧
        (t.span 5).start = 1)) = .ok true := by
    decide +kernel
  obtain ⟨t, hbuild, hpasses⟩ := exists_of_build hcheck
  obtain ⟨hlt, hanchor, hancestors, hleft, hright, hstop, hstart⟩ := of_decide_eq_true hpasses
  obtain ⟨hreach, -, hcaret, -, hsiblings, hempty⟩ := anchor_of_build hbuild
  obtain ⟨hholding, hbyte⟩ := hcaret 1 hlt
  have h3 : t.Reachable 3 := by
    have h5 := hreach (Span.caret 1)
    rw [hanchor] at h5
    exact (nested_of_build hbuild).reachable_parent h5
      (((nested_of_build hbuild).paired 3 5).1 hright)
  have hapart := (hsiblings 3 4 5 1 h3 hleft hright hstop hstart).1
  rw [hanchor] at hholding hbyte hapart
  rw [hancestors] at hholding
  refine ⟨t, hbuild, hlt, hanchor, hbyte.symm, hholding, hleft, hright, hapart, fun hnone => ?_⟩
  have hzero := hempty (Span.caret 0) (Nat.zero_le _) hnone
  omega

end SyntaxTree

end SelectionGrowth
