import Mathlib.Data.List.Chain
import Mathlib.Data.List.Perm.Subperm
import SelectionGrowth.Proofs.Syntax.Nesting
import SelectionGrowth.Selection.Growth

/-!
# Growth up to the whole document

In a finished tree every selection within the document grows, step by step, to
the whole document, through spans of nodes that can be reached from the root.

## Main statements

- `SyntaxTree.Nested.anchor_contains` — a selection lies inside its anchor
- `SyntaxTree.Nested.grow_eq_none_iff` — only the whole document does not grow
- `SyntaxTree.grow_and_chain_of_build` — single steps and whole chains of a finished tree
-/

namespace SelectionGrowth

theorem Covers.contains {outer current : Span} (h : Covers outer current) :
    outer.Contains current := by
  unfold Covers at h
  split at h
  · next hcaret =>
    unfold Span.IsCaret at hcaret
    exact ⟨h.1, by omega⟩
  · exact h

theorem SiblingGroups.mem_ancestors_of_target? {groups : SiblingGroups} {t : SyntaxTree}
    {anchor id : Nat} {current : Span} (h : groups.target? t anchor current = some id) :
    ∃ member ∈ anchor :: (t.node anchor).parent.toList, id ∈ t.ancestors member := by
  unfold SiblingGroups.target? at h
  split at h
  · exact nomatch h
  · next member group hmember =>
    obtain ⟨m, hmem, hrule⟩ := List.exists_of_findSome?_eq_some hmember
    obtain ⟨g, -, hpair⟩ := Option.map_eq_some_iff.1 hrule
    cases hpair
    exact ⟨member, hmem, List.mem_of_find?_eq_some h⟩

namespace SyntaxTree

variable {t : SyntaxTree} {groups : SiblingGroups} {current next : Span}

-- ════════════════════════════════════════════════════════════════════════
-- The anchor
-- ════════════════════════════════════════════════════════════════════════

/-- A property that covering children inherit is passed down to where the descent stops. -/
theorem descend_of_invariant {P : Nat → Prop}
    (hchild : ∀ p c, P p → c ∈ (t.node p).children → Covers (t.span c) current → P c)
    {id : Nat} (h : P id) : P (t.descend current id) := by
  fun_induction descend t current id with
  | case1 id hnone => exact h
  | case2 id child hfound hlt ih =>
    have hdecide := List.find?_some hfound
    have hcovers : Covers (t.span child) current := of_decide_eq_true hdecide
    exact ih (hchild id child h (List.mem_of_find?_eq_some hfound) hcovers)

theorem reachable_anchor (t : SyntaxTree) (current : Span) : t.Reachable (t.anchor current) :=
  descend_of_invariant (fun _ _ hp hmem _ => hp.child hmem) Reachable.root

theorem Nested.root_contains_of_le (h : t.Nested) (hle : current.stop ≤ t.length) :
    t.root.span.Contains current :=
  ⟨by rw [h.root_start]; exact Nat.zero_le _, hle⟩

theorem Nested.anchor_contains (h : t.Nested) (hle : current.stop ≤ t.length) :
    (t.span (t.anchor current)).Contains current :=
  descend_of_invariant (P := fun id => (t.span id).Contains current)
    (fun _ _ _ _ hcovers => hcovers.contains) (h.root_contains_of_le hle)

-- ════════════════════════════════════════════════════════════════════════
-- One step
-- ════════════════════════════════════════════════════════════════════════

/-- A step within the document goes to a group, to the anchor, or above the anchor. -/
theorem grow_cases (groups : SiblingGroups) (hle : current.stop ≤ t.length) :
    (∃ id, groups.target? t (t.anchor current) current = some id ∧
      t.grow groups current = .ok (some (t.span id))) ∨
    ((t.span (t.anchor current)).StrictlyContains current ∧
      t.grow groups current = .ok (some (t.span (t.anchor current)))) ∨
    (¬ (t.span (t.anchor current)).StrictlyContains current ∧
      t.grow groups current = .ok (t.enclosing? (t.anchor current) current)) := by
  have hnot : ¬ t.length < current.stop := Nat.not_lt.2 hle
  cases htarget : groups.target? t (t.anchor current) current with
  | some id =>
    left
    exact ⟨id, rfl, by simp only [grow, if_neg hnot, htarget]⟩
  | none =>
    right
    by_cases hstrict : (t.span (t.anchor current)).StrictlyContains current
    · left
      exact ⟨hstrict, by simp only [grow, if_neg hnot, htarget, if_pos hstrict]⟩
    · right
      exact ⟨hstrict, by simp only [grow, if_neg hnot, htarget, if_neg hstrict]⟩

/-- A step fails for one reason only: the selection reaches past the document. -/
theorem grow_eq_error_iff {failure : Failure} : t.grow groups current = .error failure ↔
    t.length < current.stop ∧ failure = .outOfRange (.selectionPastEnd current t.length) := by
  by_cases hlt : t.length < current.stop
  · have hgrow : t.grow groups current =
        .error (.outOfRange (.selectionPastEnd current t.length)) := by
      unfold grow
      rw [if_pos hlt]
    rw [hgrow]
    exact ⟨fun h => ⟨hlt, (Except.error.inj h).symm⟩, fun h => congrArg Except.error h.2.symm⟩
  · refine ⟨fun h => ?_, fun h => absurd h.1 hlt⟩
    rcases grow_cases groups (Nat.not_lt.1 hlt) with ⟨id, -, hok⟩ | ⟨-, hok⟩ | ⟨-, hok⟩ <;>
      exact nomatch hok.symm.trans h

theorem mem_ancestors_of_enclosing? {id : Nat} (h : t.enclosing? id current = some next) :
    ∃ a ∈ t.ancestors id, t.span a = next :=
  List.mem_map.1 (List.mem_of_find?_eq_some h)

/-- A selection grows to a node that is linked to the root, down or up. -/
theorem exists_node_of_grow {P : Nat → Prop} (hroot : P rootId)
    (hchild : ∀ p c, P p → c ∈ (t.node p).children → P c)
    (hparent : ∀ c p, P c → (t.node c).parent = some p → P p)
    (h : t.grow groups current = .ok (some next)) : ∃ id, P id ∧ t.span id = next := by
  have hanchor : P (t.anchor current) :=
    descend_of_invariant (fun p c hp hmem _ => hchild p c hp hmem) hroot
  rcases grow_cases groups (strictlyContains_of_grow h).2 with
    ⟨id, htarget, hgrow⟩ | ⟨-, hgrow⟩ | ⟨-, hgrow⟩
  · rw [hgrow] at h
    cases h
    obtain ⟨member, hmember, hmem⟩ := SiblingGroups.mem_ancestors_of_target? htarget
    have hP : P member := by
      rcases List.mem_cons.1 hmember with rfl | hp
      · exact hanchor
      · exact hparent _ member hanchor (Option.mem_toList.1 hp)
    exact ⟨id, ancestors_of_invariant hparent hP id hmem, rfl⟩
  · rw [hgrow] at h
    cases h
    exact ⟨_, hanchor, rfl⟩
  · rw [hgrow] at h
    obtain ⟨a, hmem, rfl⟩ := mem_ancestors_of_enclosing? (Except.ok.inj h)
    exact ⟨a, ancestors_of_invariant hparent hanchor a hmem, rfl⟩

namespace Nested

theorem reachable_of_grow (hn : t.Nested) (h : t.grow groups current = .ok (some next)) :
    ∃ id, t.Reachable id ∧ t.span id = next :=
  exists_node_of_grow Reachable.root (fun _ _ hp hmem => hp.child hmem)
    (fun _ _ hc hp => hn.reachable_parent hc hp) h

theorem stop_le_of_grow (hn : t.Nested) (h : t.grow groups current = .ok (some next)) :
    next.stop ≤ t.length := by
  obtain ⟨id, hid, rfl⟩ := hn.reachable_of_grow h
  exact (hn.root_contains hid).2

theorem eq_root_of_grow_eq_none (hn : t.Nested) (hle : current.stop ≤ t.length)
    (h : t.grow groups current = .ok none) : current = t.root.span := by
  rcases grow_cases groups hle with ⟨id, -, hgrow⟩ | ⟨-, hgrow⟩ | ⟨hnot, hgrow⟩
  · rw [hgrow] at h
    exact nomatch h
  · rw [hgrow] at h
    exact nomatch h
  · rw [hgrow] at h
    have hanchor : t.span (t.anchor current) = current := by
      by_contra hne
      exact hnot ⟨hn.anchor_contains hle, hne⟩
    have hnone : ∀ a ∈ t.ancestors (t.anchor current), ¬ (t.span a).StrictlyContains current := by
      intro a ha
      have hfind := List.find?_eq_none.1 (Except.ok.inj h) (t.span a) (List.mem_map_of_mem ha)
      simpa using hfind
    -- the way up ends at the root, which is no larger than the selection
    rcases hn.root_mem_ancestors (t.reachable_anchor current) with heq | hroot
    · rw [← hanchor, heq]
      rfl
    · by_contra hne
      exact hnone rootId hroot ⟨hn.root_contains_of_le hle, fun heq => hne heq.symm⟩

theorem grow_eq_none_iff (hn : t.Nested) (groups : SiblingGroups)
    (hle : current.stop ≤ t.length) :
    t.grow groups current = .ok none ↔ current = t.root.span := by
  refine ⟨hn.eq_root_of_grow_eq_none hle, ?_⟩
  rintro rfl
  have hlarger : ∀ next, t.grow groups t.root.span ≠ .ok (some next) := by
    intro next hgrow
    obtain ⟨id, hid, rfl⟩ := hn.reachable_of_grow hgrow
    exact (hn.root_contains hid).not_strictlyContains (strictlyContains_of_grow hgrow).1
  rcases grow_cases groups hle with ⟨id, -, hgrow⟩ | ⟨-, hgrow⟩ | ⟨-, hgrow⟩
  · exact absurd hgrow (hlarger _)
  · exact absurd hgrow (hlarger _)
  · cases henclosing : t.enclosing? (t.anchor t.root.span) t.root.span with
    | none => rw [hgrow, henclosing]
    | some next =>
      rw [henclosing] at hgrow
      exact absurd hgrow (hlarger next)

/-- Within the document a step gives a result, and anything but the whole document grows. -/
theorem exists_grow (hn : t.Nested) (groups : SiblingGroups) (hle : current.stop ≤ t.length)
    (hne : current ≠ t.root.span) : ∃ next, t.grow groups current = .ok (some next) := by
  have hnot : t.grow groups current ≠ .ok none :=
    fun h => hne ((hn.grow_eq_none_iff groups hle).1 h)
  rcases grow_cases groups hle with ⟨id, -, hgrow⟩ | ⟨-, hgrow⟩ | ⟨-, hgrow⟩
  · exact ⟨_, hgrow⟩
  · exact ⟨_, hgrow⟩
  · cases henclosing : t.enclosing? (t.anchor current) current with
    | none => rw [henclosing] at hgrow; exact absurd hgrow hnot
    | some next => exact ⟨next, by rw [hgrow, henclosing]⟩

end Nested

-- ════════════════════════════════════════════════════════════════════════
-- Whole chains
-- ════════════════════════════════════════════════════════════════════════

theorem chain_of_grow_eq_none (h : t.grow groups current = .ok none) :
    t.chain groups current = .ok [] := by
  rw [chain]
  split
  · next hgrow => rw [h] at hgrow; cases hgrow
  · rfl
  · next hgrow => rw [h] at hgrow; cases hgrow

theorem chain_of_grow_eq_some (h : t.grow groups current = .ok (some next)) :
    t.chain groups current = (t.chain groups next).map (next :: ·) := by
  rw [chain]
  split
  · next hgrow => rw [h] at hgrow; cases hgrow
  · next hgrow => rw [h] at hgrow; cases hgrow
  · next other hgrow =>
    rw [h] at hgrow
    cases hgrow
    rfl

theorem chain_of_grow_eq_error {failure : Failure} (h : t.grow groups current = .error failure) :
    t.chain groups current = .error failure := by
  rw [chain]
  split
  · next hgrow =>
    rw [h] at hgrow
    cases hgrow
    rfl
  · next hgrow => rw [h] at hgrow; cases hgrow
  · next hgrow => rw [h] at hgrow; cases hgrow

theorem length_le_nodeCount {spans : List Span} (hnodup : spans.Nodup)
    (hnode : ∀ span ∈ spans, ∃ id < t.nodeCount, t.span id = span) :
    spans.length ≤ t.nodeCount := by
  have hsubset : spans ⊆ (List.range t.nodeCount).map t.span := by
    intro span hspan
    obtain ⟨id, hid, rfl⟩ := hnode span hspan
    exact List.mem_map_of_mem (List.mem_range.2 hid)
  have hlength := (List.subperm_of_subset hnodup hsubset).length_le
  simpa using hlength

theorem nodup_of_isChain {spans : List Span}
    (h : spans.IsChain fun inner outer => outer.StrictlyContains inner) : spans.Nodup := by
  have htrans : IsTrans Span fun inner outer => outer.StrictlyContains inner :=
    ⟨fun _ _ _ hab hbc => hbc.trans_contains hab.1⟩
  exact h.pairwise.imp fun hstrict heq => hstrict.2 heq.symm

/--
What a chain of growth steps is: each selection strictly larger than the one
before it, all of them spans of nodes that can be reached, the last one the
whole document.
-/
structure GrowthChain (t : SyntaxTree) (start : Span) (spans : List Span) : Prop where
  increasing : (start :: spans).IsChain fun inner outer => outer.StrictlyContains inner
  reachable : ∀ span ∈ spans, ∃ id, t.Reachable id ∧ t.span id = span
  last : (start :: spans).getLast (List.cons_ne_nil _ _) = t.root.span

/-- Within the document the chain of a nested tree is a chain of growth steps to the root. -/
theorem Nested.exists_chain (hn : t.Nested) (groups : SiblingGroups) (start : Span)
    (hle : start.stop ≤ t.length) :
    ∃ spans, t.chain groups start = .ok spans ∧ t.GrowthChain start spans := by
  induction hroom : start.start + (t.length + 1 - start.stop) using Nat.strongRecOn
    generalizing start with
  | ind room ih =>
    subst hroom
    by_cases hroot : start = t.root.span
    · refine ⟨[], chain_of_grow_eq_none ((hn.grow_eq_none_iff groups hle).2 hroot), ?_⟩
      exact ⟨List.isChain_singleton start, fun span hspan => absurd hspan List.not_mem_nil, hroot⟩
    · obtain ⟨next, hgrow⟩ := hn.exists_grow groups hle hroot
      obtain ⟨spans, hchain, hgrowth⟩ :=
        ih _ (room_lt_of_grow hgrow) next (hn.stop_le_of_grow hgrow) rfl
      refine ⟨next :: spans, ?_, ?_, ?_, ?_⟩
      · rw [chain_of_grow_eq_some hgrow, hchain]
        rfl
      · exact List.isChain_cons_cons.2 ⟨(strictlyContains_of_grow hgrow).1, hgrowth.increasing⟩
      · intro span hspan
        rcases List.mem_cons.1 hspan with rfl | hrest
        · exact hn.reachable_of_grow hgrow
        · exact hgrowth.reachable span hrest
      · rw [List.getLast_cons (List.cons_ne_nil _ _)]
        exact hgrowth.last

theorem GrowthChain.length_le {start : Span} {spans : List Span} (h : t.GrowthChain start spans) :
    spans.length ≤ t.nodeCount := by
  have hnodup : spans.Nodup := (nodup_of_isChain h.increasing).of_cons
  refine length_le_nodeCount hnodup fun span hspan => ?_
  obtain ⟨id, hid, hspan⟩ := h.reachable span hspan
  exact ⟨id, hid.lt_nodeCount, hspan⟩

theorem Nested.chain_eq_error_iff (hn : t.Nested) {failure : Failure} :
    t.chain groups current = .error failure ↔
      t.length < current.stop ∧ failure = .outOfRange (.selectionPastEnd current t.length) := by
  by_cases hlt : t.length < current.stop
  · rw [chain_of_grow_eq_error (grow_eq_error_iff.2 ⟨hlt, rfl⟩)]
    exact ⟨fun h => ⟨hlt, (Except.error.inj h).symm⟩, fun h => congrArg Except.error h.2.symm⟩
  · refine ⟨fun h => ?_, fun h => absurd h.1 hlt⟩
    obtain ⟨spans, hok, -⟩ := hn.exists_chain groups current (Nat.not_lt.1 hlt)
    exact nomatch hok.symm.trans h

theorem GrowthChain.getLast_eq_root {start last : Span} {spans : List Span}
    (h : t.GrowthChain start spans) (hlast : spans.getLast? = some last) : last = t.root.span := by
  cases spans with
  | nil => exact nomatch hlast
  | cons first rest =>
    have hroot := h.last
    rw [List.getLast_eq_iff_getLast?_eq_some, List.getLast?_cons_cons, hlast] at hroot
    exact Option.some.inj hroot

theorem GrowthChain.eq_nil_iff {start : Span} {spans : List Span} (hn : t.Nested)
    (h : t.GrowthChain start spans) : spans = [] ↔ start = t.root.span := by
  cases spans with
  | nil => exact ⟨fun _ => h.last, fun _ => rfl⟩
  | cons first rest =>
    refine ⟨fun hnil => absurd hnil (List.cons_ne_nil first rest), ?_⟩
    rintro rfl
    obtain ⟨id, hid, rfl⟩ := h.reachable first List.mem_cons_self
    exact absurd (List.isChain_cons_cons.1 h.increasing).1
      (hn.root_contains hid).not_strictlyContains

/--
In every tree that a builder finishes, and for every table of groups: a
selection fails to grow exactly when it reaches past the document, it has
nothing to grow to exactly when it is the whole document, and otherwise it grows
to a strictly larger node that can be reached from the root. Hence its chain
fails only past the document, and else leads through ever larger nodes, at most
as many as the tree has, to the whole document.
-/
theorem grow_and_chain_of_build {revision : Int} {steps : List BuildStep} {t : SyntaxTree}
    (h : SyntaxTree.build revision steps = .ok t) (groups : SiblingGroups) (start : Span) :
    (∀ failure, t.grow groups start = .error failure ↔
      t.length < start.stop ∧ failure = .outOfRange (.selectionPastEnd start t.length)) ∧
    (∀ failure, t.chain groups start = .error failure ↔
      t.length < start.stop ∧ failure = .outOfRange (.selectionPastEnd start t.length)) ∧
    (start.stop ≤ t.length →
      (t.grow groups start = .ok none ↔ start = t.root.span) ∧
      (start ≠ t.root.span → ∃ id, t.Reachable id ∧ t.grow groups start = .ok (some (t.span id)) ∧
        (t.span id).StrictlyContains start) ∧
      ∃ spans, t.chain groups start = .ok spans ∧
        (spans = [] ↔ start = t.root.span) ∧
        (start :: spans).IsChain (fun inner outer => outer.StrictlyContains inner) ∧
        (∀ last, spans.getLast? = some last → last = t.root.span) ∧
        spans.length ≤ t.nodeCount) := by
  have hn := nested_of_build h
  refine ⟨fun _ => grow_eq_error_iff, fun _ => hn.chain_eq_error_iff, fun hle => ?_⟩
  obtain ⟨spans, hchain, hgrowth⟩ := hn.exists_chain groups start hle
  refine ⟨hn.grow_eq_none_iff groups hle, fun hne => ?_, spans, hchain, hgrowth.eq_nil_iff hn,
    hgrowth.increasing, fun _ hlast => hgrowth.getLast_eq_root hlast, hgrowth.length_le⟩
  obtain ⟨next, hgrow⟩ := hn.exists_grow groups hle hne
  obtain ⟨id, hid, rfl⟩ := hn.reachable_of_grow hgrow
  exact ⟨id, hid, hgrow, (strictlyContains_of_grow hgrow).1⟩

/-- The steps for a call of two bytes in a wrapper of equal width, after an empty node. -/
def wrappedCallSteps : List BuildStep :=
  [.start .compilationUnit "program" 0, .token .other "empty" (Span.caret 0),
    .start .statement "wrapper" 0, .start .expression "call" 0,
    .token .other "name" (Span.ofBounds 0 1), .token .other "arguments" (Span.ofBounds 1 3),
    .finish 3, .finish 3, .finish 4]

/-- The chain from the caret inside the call ends at the whole text after at most six selections. -/
theorem grow_and_chain_of_wrappedCall : ∃ t, SyntaxTree.build 0 wrappedCallSteps = .ok t ∧
    (Span.caret 1).stop ≤ t.length ∧
    ∃ spans, t.chain SiblingGroups.standard (Span.caret 1) = .ok spans ∧
      (spans = [] ↔ Span.caret 1 = t.root.span) ∧
      (∀ last, spans.getLast? = some last → last = t.root.span) ∧
      spans.length ≤ t.nodeCount := by
  have hcheck : (SyntaxTree.build 0 wrappedCallSteps).map
      (fun t => decide ((Span.caret 1).stop ≤ t.length)) = .ok true := by
    decide +kernel
  obtain ⟨t, hbuild, hle⟩ := exists_of_build hcheck
  obtain ⟨spans, hchain, hnil, -, hlast, hcount⟩ :=
    ((grow_and_chain_of_build hbuild SiblingGroups.standard (Span.caret 1)).2.2
      (of_decide_eq_true hle)).2.2
  exact ⟨t, hbuild, of_decide_eq_true hle, spans, hchain, hnil, hlast, hcount⟩

end SyntaxTree

end SelectionGrowth
