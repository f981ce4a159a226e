import SelectionGrowth.Proofs.Selection.Anchor

/-!
# Groups skip steps

A table of sibling groups makes a selection jump over some of the nodes that it
would grow through otherwise. After a jump the anchor is looked up anew, from a
span that growth without groups may not have reached yet. This file shows that
growth without groups passes through every span that a jump can reach, so groups
leave steps out and do no more.

## Main statements

- `SyntaxTree.Nested.contains_of_grow_nil` — without groups a selection grows to the smallest node
- `SyntaxTree.Ordered.exists_chain_through` — growth without groups misses no larger node
- `SyntaxTree.groups_skip_of_build` — the chain with groups is part of the chain without
-/

namespace SelectionGrowth

theorem Span.StrictlyContains.not_isCaret {outer inner : Span} (h : outer.StrictlyContains inner) :
    ¬ outer.IsCaret := by
  have hends := h.lt_or_lt
  have hcontains := h.1
  have hordered := inner.ordered
  unfold Span.Contains at hcontains
  unfold Span.IsCaret
  omega

namespace SyntaxTree

variable {t : SyntaxTree} {groups : SiblingGroups} {current next : Span}

-- ════════════════════════════════════════════════════════════════════════
-- One step with and without groups
-- ════════════════════════════════════════════════════════════════════════

/-- With any groups a selection grows to a node above its anchor, or to the anchor. -/
theorem exists_wayUp_of_grow (h : t.grow groups current = .ok (some next)) :
    ∃ id, WayUp t.nodes (t.anchor current) id ∧ t.span id = next := by
  rcases grow_cases groups (strictlyContains_of_grow h).2 with
    ⟨id, htarget, hgrow⟩ | ⟨-, hgrow⟩ | ⟨-, hgrow⟩
  · rw [hgrow] at h
    cases h
    obtain ⟨member, hmember, hmem⟩ := SiblingGroups.mem_ancestors_of_target? htarget
    refine ⟨id, ?_, rfl⟩
    have hup : WayUp t.nodes (t.anchor current) member := by
      rcases List.mem_cons.1 hmember with rfl | hparent
      · exact Relation.ReflTransGen.refl
      · exact Relation.ReflTransGen.single (Option.mem_toList.1 hparent)
    exact hup.trans (wayUp_iff.2 (Or.inr hmem))
  · rw [hgrow] at h
    cases h
    exact ⟨_, Relation.ReflTransGen.refl, rfl⟩
  · rw [hgrow] at h
    obtain ⟨a, hmem, rfl⟩ := mem_ancestors_of_enclosing? (Except.ok.inj h)
    exact ⟨a, wayUp_iff.2 (Or.inr hmem), rfl⟩

/-- The nearest larger span above a node lies inside all the others. -/
theorem Nested.contains_of_enclosing? (h : t.Nested) {id a : Nat}
    (hfound : t.enclosing? id current = some next) (ha : a ∈ t.ancestors id)
    (hstrict : (t.span a).StrictlyContains current) : (t.span a).Contains next := by
  induction id using Nat.strongRecOn with
  | ind id ih =>
    unfold enclosing? at hfound ih
    cases hparent : (t.node id).parent with
    | none =>
      rw [ancestors_eq_nil hparent] at ha
      exact absurd ha List.not_mem_nil
    | some p =>
      rw [ancestors_eq_cons hparent, List.map_cons, List.find?_cons] at hfound
      rw [ancestors_eq_cons hparent] at ha
      split at hfound
      · cases hfound
        exact h.contains_of_wayUp (wayUp_iff.2 (List.mem_cons.1 ha))
      · next hsmall =>
        rcases List.mem_cons.1 ha with rfl | hmem
        · exact absurd hstrict (of_decide_eq_false hsmall)
        · exact ih p (t.linked.parent_lt id p hparent) hfound hmem

theorem target?_nil (t : SyntaxTree) (anchor : Nat) (current : Span) :
    SiblingGroups.target? [] t anchor current = none := by
  have hmember : SiblingGroups.memberAt? [] t anchor = none :=
    List.findSome?_eq_none_iff.2 fun _ _ => rfl
  unfold SiblingGroups.target?
  rw [hmember]

/-- Without groups a selection grows to the smallest of the larger nodes above its anchor. -/
theorem Nested.contains_of_grow_nil (h : t.Nested) {a : Nat}
    (hgrow : t.grow [] current = .ok (some next)) (hup : WayUp t.nodes (t.anchor current) a)
    (hstrict : (t.span a).StrictlyContains current) : (t.span a).Contains next := by
  rcases grow_cases [] (strictlyContains_of_grow hgrow).2 with
    ⟨id, htarget, -⟩ | ⟨-, hanchor⟩ | ⟨hnot, habove⟩
  · rw [target?_nil] at htarget
    exact nomatch htarget
  · rw [hanchor] at hgrow
    cases hgrow
    exact h.contains_of_wayUp hup
  · rw [habove] at hgrow
    rcases wayUp_iff.1 hup with rfl | hmem
    · exact absurd hstrict hnot
    · exact h.contains_of_enclosing? (Except.ok.inj hgrow) hmem hstrict

-- ════════════════════════════════════════════════════════════════════════
-- Chains with and without groups
-- ════════════════════════════════════════════════════════════════════════

/-- Growth without groups passes through every larger node above the anchor, and goes on from it
as from any selection. -/
theorem Ordered.exists_chain_through (h : t.Ordered) {a : Nat} {spans : List Span}
    (hchain : t.chain [] current = .ok spans) (hup : WayUp t.nodes (t.anchor current) a)
    (hstrict : (t.span a).StrictlyContains current) :
    ∃ before rest, spans = before ++ t.span a :: rest ∧ t.chain [] (t.span a) = .ok rest := by
  have ha : t.Reachable a := h.reachable_of_wayUp (t.reachable_anchor current) hup
  induction current using chain.induct t [] generalizing spans with
  | case1 current failure hgrow =>
    rw [chain_of_grow_eq_error hgrow] at hchain
    exact nomatch hchain
  | case2 current hgrow =>
    -- only the whole document does not grow, and no node is larger
    have hle : current.stop ≤ t.length :=
      Nat.le_trans hstrict.1.2 (h.root_contains ha).2
    rw [h.eq_root_of_grow_eq_none hle hgrow] at hstrict
    exact absurd hstrict (h.root_contains ha).not_strictlyContains
  | case3 current next hgrow _ ih =>
    rw [chain_of_grow_eq_some hgrow] at hchain
    obtain ⟨spans', hrest, rfl⟩ := exists_of_map_eq_ok hchain
    have hcontains := h.contains_of_grow_nil hgrow hup hstrict
    by_cases heq : t.span a = next
    · exact ⟨[], spans', by rw [heq]; rfl, by rw [heq]; exact hrest⟩
    · have hwide := (strictlyContains_of_grow hgrow).1.not_isCaret
      obtain ⟨before, rest, hspans, hlater⟩ :=
        ih hrest (h.wayUp_anchor ha (.of_contains hwide hcontains)) ⟨hcontains, heq⟩
      exact ⟨next :: before, rest, by rw [hspans, List.cons_append], hlater⟩

/-- The chain with groups is the chain without, with some selections left out. -/
theorem Ordered.chain_sublist (h : t.Ordered) {grouped plain : List Span}
    (hgrouped : t.chain groups current = .ok grouped) (hplain : t.chain [] current = .ok plain) :
    grouped.Sublist plain := by
  induction current using chain.induct t groups generalizing grouped plain with
  | case1 current failure hgrow =>
    rw [chain_of_grow_eq_error hgrow] at hgrouped
    exact nomatch hgrouped
  | case2 current hgrow =>
    rw [chain_of_grow_eq_none hgrow] at hgrouped
    cases hgrouped
    exact List.nil_sublist plain
  | case3 current next hgrow _ ih =>
    rw [chain_of_grow_eq_some hgrow] at hgrouped
    obtain ⟨grouped', hrest, rfl⟩ := exists_of_map_eq_ok hgrouped
    obtain ⟨a, hup, rfl⟩ := exists_wayUp_of_grow hgrow
    obtain ⟨before, rest, rfl, hlater⟩ :=
      h.exists_chain_through hplain hup (strictlyContains_of_grow hgrow).1
    exact ((ih hrest hlater).cons_cons _).trans (List.sublist_append_right before _)

/-- The first steps with and without groups: both stay, or the one with groups goes further. -/
theorem Nested.grow_grow_nil (h : t.Nested) (groups : SiblingGroups)
    (hle : current.stop ≤ t.length) :
    (t.grow groups current = .ok none ∧ t.grow [] current = .ok none) ∨
      ∃ jump step, t.grow groups current = .ok (some jump) ∧
        t.grow [] current = .ok (some step) ∧ jump.Contains step := by
  by_cases hroot : current = t.root.span
  · exact Or.inl ⟨(h.grow_eq_none_iff groups hle).2 hroot, (h.grow_eq_none_iff [] hle).2 hroot⟩
  · obtain ⟨jump, hjump⟩ := h.exists_grow groups hle hroot
    obtain ⟨step, hstep⟩ := h.exists_grow [] hle hroot
    obtain ⟨a, hup, rfl⟩ := exists_wayUp_of_grow hjump
    exact Or.inr ⟨_, step, hjump, hstep,
      h.contains_of_grow_nil hstep hup (strictlyContains_of_grow hjump).1⟩

theorem GrowthChain.getLast?_eq {start : Span} {spans : List Span} (h : t.GrowthChain start spans)
    (hne : spans ≠ []) : spans.getLast? = some t.root.span := by
  have hlast := List.getLast?_eq_some_getLast hne
  rw [hlast, h.getLast_eq_root hlast]

/--
In every tree that a builder finishes, and for every selection within it, a table
of groups only leaves steps out: the chain with groups is a part of the chain
without, in the same order. Both end with the same selection, and either both are
empty or none is. Each single step with groups contains the step without.
-/
theorem groups_skip_of_build {revision : Int} {steps : List BuildStep} {t : SyntaxTree}
    (h : SyntaxTree.build revision steps = .ok t) (groups : SiblingGroups) (start : Span)
    (hle : start.stop ≤ t.length) :
    ((t.grow groups start = .ok none ∧ t.grow [] start = .ok none) ∨
      ∃ jump step, t.grow groups start = .ok (some jump) ∧
        t.grow [] start = .ok (some step) ∧ jump.Contains step) ∧
    ∃ grouped plain, t.chain groups start = .ok grouped ∧ t.chain [] start = .ok plain ∧
      grouped.Sublist plain ∧ grouped.getLast? = plain.getLast? ∧ (grouped = [] ↔ plain = []) := by
  have hordered := ordered_of_build h
  have hn := hordered.toNested
  obtain ⟨grouped, hgrouped, hchain⟩ := hn.exists_chain groups start hle
  obtain ⟨plain, hplain, hchain'⟩ := hn.exists_chain [] start hle
  have hempty : grouped = [] ↔ plain = [] :=
    (hchain.eq_nil_iff hn).trans (hchain'.eq_nil_iff hn).symm
  refine ⟨hn.grow_grow_nil groups hle, grouped, plain, hgrouped, hplain,
    hordered.chain_sublist hgrouped hplain, ?_, hempty⟩
  by_cases hnil : grouped = []
  · rw [hnil, hempty.1 hnil]
  · rw [hchain.getLast?_eq hnil, hchain'.getLast?_eq fun hplain => hnil (hempty.2 hplain)]

/-- The steps for a `try` with one `catch`, whose block holds a name. -/
def tryCatchSteps : List BuildStep :=
  [.start .compilationUnit "program" 0, .start .tryStatement "try_statement" 0,
    .token .other "try" (Span.ofBounds 0 3), .token .block "block" (Span.ofBounds 3 6),
    .start .catchClause "catch_clause" 6, .token .other "catch" (Span.ofBounds 6 11),
    .start .block "block" 11, .token .expression "name" (Span.ofBounds 12 13), .finish 14,
    .finish 14, .finish 14, .finish 16]

/-- From the caret at the name the standard groups leave out one selection of five, the `catch`. -/
theorem groups_skip_of_tryCatch : ∃ t, SyntaxTree.build 0 tryCatchSteps = .ok t ∧
    (Span.caret 12).stop ≤ t.length ∧
    ∃ grouped plain, t.chain SiblingGroups.standard (Span.caret 12) = .ok grouped ∧
      t.chain [] (Span.caret 12) = .ok plain ∧ grouped.Sublist plain ∧
      grouped.getLast? = plain.getLast? ∧ grouped.length = 4 ∧ plain.length = 5 := by
  have hcheck : (SyntaxTree.build 0 tryCatchSteps).map (fun t => decide
      ((Span.caret 12).stop ≤ t.length ∧
        (t.chain SiblingGroups.standard (Span.caret 12)).map List.length = .ok 4 ∧
        (t.chain [] (Span.caret 12)).map List.length = .ok 5)) = .ok true := by
    decide +kernel
  obtain ⟨t, hbuild, hpasses⟩ := exists_of_build hcheck
  obtain ⟨hle, hfour, hfive⟩ := of_decide_eq_true hpasses
  obtain ⟨-, grouped, plain, hgrouped, hplain, hsublist, hlast, -⟩ :=
    groups_skip_of_build hbuild SiblingGroups.standard (Span.caret 12) hle
  rw [hgrouped] at hfour
  rw [hplain] at hfive
  exact ⟨t, hbuild, hle, grouped, plain, hgrouped, hplain, hsublist, hlast, Except.ok.inj hfour,
    Except.ok.inj hfive⟩

end SyntaxTree

end SelectionGrowth
