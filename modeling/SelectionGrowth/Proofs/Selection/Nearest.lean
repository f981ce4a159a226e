import SelectionGrowth.Proofs.Selection.Skipping

/-!
# The nearest larger node

Growth looks at the anchor of a selection and at the nodes above it, never at the
whole tree. The nodes that cover a selection all lie on that way, so what is
nearest on it is the least of all. With a table of groups the anchor and its
parent may each have a rule, and only the first rule counts; a clause of a group
is nevertheless left behind after one further step.

## Main definitions

- `SyntaxTree.LeastAround` — the least of the larger nodes that cover a selection
- `SyntaxTree.MemberOf` — a clause whose rule names the node above it

## Main statements

- `SyntaxTree.Ordered.exists_leastAround` — growth without groups goes to the least larger node
- `SyntaxTree.grow_nil_of_build` — the same for finished trees, and larger selections grow further
- `SyntaxTree.MemberOf.eq_or_contains_of_grow` — a step out of a clause stops at the clause or
  reaches its group
- `SyntaxTree.group_within_two_steps` — a group is at most one further step away
-/

namespace SelectionGrowth

namespace SyntaxTree

variable {t : SyntaxTree} {groups : SiblingGroups} {current next : Span}

-- ════════════════════════════════════════════════════════════════════════
-- Growth without groups
-- ════════════════════════════════════════════════════════════════════════

/-- A node that covers a selection, is strictly larger, and lies in all other such nodes. -/
structure LeastAround (t : SyntaxTree) (current : Span) (id : Nat) : Prop where
  reachable : t.Reachable id
  covering : t.Covering current id
  larger : (t.span id).StrictlyContains current
  least : ∀ other, t.Reachable other → t.Covering current other →
    (t.span other).StrictlyContains current → (t.span other).Contains (t.span id)

namespace Ordered

/-- Without groups a selection grows to the least of the larger nodes that cover it. -/
theorem exists_leastAround (h : t.Ordered) (hle : current.stop ≤ t.length)
    (hne : current ≠ t.root.span) :
    ∃ id, t.LeastAround current id ∧ t.grow [] current = .ok (some (t.span id)) := by
  obtain ⟨next, hgrow⟩ := h.exists_grow [] hle hne
  obtain ⟨id, hup, rfl⟩ := exists_wayUp_of_grow hgrow
  obtain ⟨hid, hcovering⟩ := (h.wayUp_anchor_iff hle).1 hup
  refine ⟨id, ⟨hid, hcovering, (strictlyContains_of_grow hgrow).1, ?_⟩, hgrow⟩
  intro other hother hcovers hstrict
  exact h.contains_of_grow_nil hgrow ((h.wayUp_anchor_iff hle).2 ⟨hother, hcovers⟩) hstrict

/-- A larger selection grows to a node that contains what a smaller one grows to. -/
theorem grow_nil_mono (h : t.Ordered) {inner outer : Span} (hwide : ¬ inner.IsCaret)
    (hcontains : outer.Contains inner) (hle : outer.stop ≤ t.length)
    (hne : outer ≠ t.root.span) :
    ∃ a b, t.grow [] inner = .ok (some a) ∧ t.grow [] outer = .ok (some b) ∧ b.Contains a := by
  have hinner : inner ≠ t.root.span := by
    rintro rfl
    exact hne (hcontains.antisymm (h.root_contains_of_le hle))
  obtain ⟨a, hleast, ha⟩ := h.exists_leastAround (Nat.le_trans hcontains.2 hle) hinner
  obtain ⟨b, haround, hb⟩ := h.exists_leastAround hle hne
  have hlarger := haround.larger.trans_contains hcontains
  exact ⟨_, _, ha, hb, hleast.least b haround.reachable
    ((covering_iff_contains hwide).2 hlarger.1) hlarger⟩

end Ordered

/--
In every tree that a builder finishes, and without groups: a selection within the
document that is not the whole of it grows to the least node that covers it and is
strictly larger. Hence of two selections with bytes, one inside the other, the
larger one grows to a span that contains what the smaller one grows to.
-/
theorem grow_nil_of_build {revision : Int} {steps : List BuildStep} {t : SyntaxTree}
    (h : SyntaxTree.build revision steps = .ok t) :
    (∀ current : Span, current.stop ≤ t.length → current ≠ t.root.span →
      ∃ id, t.LeastAround current id ∧ t.grow [] current = .ok (some (t.span id))) ∧
    ∀ inner outer : Span, ¬ inner.IsCaret → outer.Contains inner → outer.stop ≤ t.length →
      outer ≠ t.root.span →
      ∃ a b, t.grow [] inner = .ok (some a) ∧ t.grow [] outer = .ok (some b) ∧ b.Contains a :=
  ⟨fun _ => (ordered_of_build h).exists_leastAround, fun _ _ => (ordered_of_build h).grow_nil_mono⟩

/-- The call and its wrapper have one span. Both grow to the least node that is larger, and the name
inside the call grows to no more. -/
theorem grow_nil_of_wrappedCall : ∃ t, SyntaxTree.build 0 wrappedCallSteps = .ok t ∧
    t.span 2 = t.span 3 ∧ (t.span 3).stop ≤ t.length ∧ t.span 3 ≠ t.root.span ∧
    (∃ id, t.LeastAround (t.span 3) id ∧ t.grow [] (t.span 3) = .ok (some (t.span id))) ∧
    ∃ a b, t.grow [] (t.span 4) = .ok (some a) ∧ t.grow [] (t.span 3) = .ok (some b) ∧
      b.Contains a := by
  have hcheck : (SyntaxTree.build 0 wrappedCallSteps).map (fun t => decide
      (t.span 2 = t.span 3 ∧ (t.span 3).stop ≤ t.length ∧ t.span 3 ≠ t.root.span ∧
        ¬ (t.span 4).IsCaret ∧ (t.span 3).Contains (t.span 4))) = .ok true := by
    decide +kernel
  obtain ⟨t, hbuild, hpasses⟩ := exists_of_build hcheck
  obtain ⟨hsame, hle, hne, hwide, hcontains⟩ := of_decide_eq_true hpasses
  obtain ⟨hleast, hmono⟩ := grow_nil_of_build hbuild
  exact ⟨t, hbuild, hsame, hle, hne, hleast _ hle hne, hmono _ _ hwide hcontains hle hne⟩

-- ════════════════════════════════════════════════════════════════════════
-- Growth out of a clause
-- ════════════════════════════════════════════════════════════════════════

/--
A clause of a group: the rule for its kind names the kind of its parent, the
parent is larger, and no node below the clause has the span of the clause.
-/
structure MemberOf (t : SyntaxTree) (groups : SiblingGroups) (member group : Nat) : Prop where
  reachable : t.Reachable member
  parent : (t.node member).parent = some group
  rule : groups.groupFor? (t.node member).kind = some (t.node group).kind
  larger : t.span group ≠ t.span member
  bottom : ∀ id, member ∈ t.ancestors id → t.span id ≠ t.span member

theorem grow_of_target? {id : Nat} (hle : current.stop ≤ t.length)
    (h : groups.target? t (t.anchor current) current = some id) :
    t.grow groups current = .ok (some (t.span id)) := by
  simp only [grow, if_neg (Nat.not_lt.2 hle), h]

namespace MemberOf

variable {member group : Nat}

theorem target?_eq (h : t.MemberOf groups member group)
    (hstrict : (t.span group).StrictlyContains current) :
    groups.target? t member current = some group := by
  have hmember : groups.memberAt? t member = some (member, (t.node group).kind) := by
    simp [SiblingGroups.memberAt?, h.rule]
  simp [SiblingGroups.target?, hmember, ancestors_eq_cons h.parent, hstrict]

theorem group_strictlyContains (h : t.MemberOf groups member group) (hn : t.Nested) :
    (t.span group).StrictlyContains (t.span member) :=
  ⟨hn.contains_child group member ((hn.paired group member).2 h.parent), h.larger⟩

/-- A node at or below a clause that is as large as the clause is the clause. -/
theorem eq_of_wayUp (h : t.MemberOf groups member group) (hn : t.Nested) {id : Nat}
    (hup : WayUp t.nodes id member) (hcontains : (t.span id).Contains (t.span member)) :
    id = member := by
  rcases wayUp_iff.1 hup with heq | hmem
  · exact heq.symm
  · have hspan := hcontains.antisymm (hn.contains_of_wayUp hup)
    exact absurd hspan (h.bottom id hmem)

/-- The whole of a clause grows to its group. -/
theorem grow_span (h : t.MemberOf groups member group) (ho : t.Ordered)
    (hwide : ¬ (t.span member).IsCaret) :
    t.grow groups (t.span member) = .ok (some (t.span group)) := by
  have hle : (t.span member).stop ≤ t.length := (ho.root_contains h.reachable).2
  have hup := ho.wayUp_anchor h.reachable (.of_contains hwide (Span.Contains.refl _))
  have hanchor := h.eq_of_wayUp ho.toNested hup (ho.anchor_contains hle)
  have htarget := h.target?_eq (h.group_strictlyContains ho.toNested)
  refine grow_of_target? hle ?_
  rw [hanchor]
  exact htarget

/--
If a selection inside a clause would grow to the clause without groups, then with
groups it grows to the clause or to a span that contains the group.
-/
theorem eq_or_contains_of_grow (h : t.MemberOf groups member group) (ho : t.Ordered)
    {plain : Span} (hcovers : Covers (t.span member) current)
    (hplain : t.grow [] current = .ok (some plain)) (hreaches : plain.Contains (t.span member))
    (hgrow : t.grow groups current = .ok (some next)) :
    next = t.span member ∨ next.Contains (t.span group) := by
  obtain ⟨id, hup, rfl⟩ := exists_wayUp_of_grow hgrow
  have hstrict := (strictlyContains_of_grow hgrow).1
  rcases (ho.wayUp_anchor h.reachable hcovers).total hup with habove | hbelow
  · rcases wayUp_iff.1 habove with rfl | hmem
    · exact Or.inl rfl
    · right
      rw [ancestors_eq_cons h.parent] at hmem
      exact ho.contains_of_wayUp (wayUp_iff.2 (List.mem_cons.1 hmem))
  · -- growth without groups would have stopped at a larger node below the clause
    have hcontains := (ho.contains_of_grow_nil hplain hup hstrict).trans hreaches
    exact Or.inl (congrArg t.span (h.eq_of_wayUp ho.toNested hbelow hcontains))

end MemberOf

/--
In every tree that a builder finishes, and for every table of groups: a selection
inside a clause that without groups grows to the clause or further reaches the
group of the clause in one step, or it grows to the clause, and the clause to the
group.
-/
theorem group_within_two_steps {revision : Int} {steps : List BuildStep} {t : SyntaxTree}
    (h : SyntaxTree.build revision steps = .ok t) {groups : SiblingGroups} {member group : Nat}
    (hmember : t.MemberOf groups member group) {current plain : Span}
    (hcovers : Covers (t.span member) current) (hplain : t.grow [] current = .ok (some plain))
    (hreaches : plain.Contains (t.span member)) :
    ∃ next, t.grow groups current = .ok (some next) ∧
      (next.Contains (t.span group) ∨
        next = t.span member ∧ t.grow groups next = .ok (some (t.span group))) := by
  have ho := ordered_of_build h
  have hle := (strictlyContains_of_grow hplain).2
  rcases ho.grow_grow_nil groups hle with ⟨-, hnone⟩ | ⟨next, -, hgrow, -, -⟩
  · exact nomatch hplain.symm.trans hnone
  · refine ⟨next, hgrow, ?_⟩
    rcases hmember.eq_or_contains_of_grow ho hcovers hplain hreaches hgrow with heq | hcontains
    · rw [heq]
      exact Or.inr ⟨rfl, hmember.grow_span ho hcovers.not_isCaret⟩
    · exact Or.inl hcontains

/-- The steps for a `try` whose `catch` has a block in a wrapper of equal width. -/
def wrappedCatchSteps : List BuildStep :=
  [.start .compilationUnit "program" 0, .start .tryStatement "try_statement" 0,
    .token .other "try" (Span.ofBounds 0 3), .token .block "block" (Span.ofBounds 3 6),
    .start .catchClause "catch_clause" 6, .token .other "catch" (Span.ofBounds 6 11),
    .start .statement "wrapper" 11, .start .block "block" 11,
    .token .expression "name" (Span.ofBounds 12 13), .finish 14, .finish 14, .finish 14,
    .finish 14, .finish 16]

/-- The wrapper hides the `catch` from the anchor of the block: the block grows to the `catch`
first, and from there to the `try`. -/
theorem group_of_wrappedCatch : ∃ t, SyntaxTree.build 0 wrappedCatchSteps = .ok t ∧
    t.MemberOf SiblingGroups.standard 4 1 ∧ Covers (t.span 4) (t.span 7) ∧
    t.grow [] (t.span 7) = .ok (some (t.span 4)) ∧
    t.grow SiblingGroups.standard (t.span 7) = .ok (some (t.span 4)) ∧
    t.grow SiblingGroups.standard (t.span 4) = .ok (some (t.span 1)) := by
  have hcheck : (SyntaxTree.build 0 wrappedCatchSteps).map (fun t => decide
      ((t.node 4).parent = some 1 ∧ (t.node 1).parent = some 0 ∧
        SiblingGroups.standard.groupFor? (t.node 4).kind = some (t.node 1).kind ∧
        t.span 1 ≠ t.span 4 ∧ (∀ id < t.nodeCount, 4 ∈ t.ancestors id → t.span id ≠ t.span 4) ∧
        Covers (t.span 4) (t.span 7) ∧ t.grow [] (t.span 7) = .ok (some (t.span 4)) ∧
        t.grow SiblingGroups.standard (t.span 7) = .ok (some (t.span 4)) ∧
        ¬ (t.span 4).Contains (t.span 1))) = .ok true := by
    decide +kernel
  obtain ⟨t, hbuild, hpasses⟩ := exists_of_build hcheck
  obtain ⟨hparent, hgrandparent, hrule, hlarger, hbottom, hcovers, hplain, hgrow, hshort⟩ :=
    of_decide_eq_true hpasses
  have hn := nested_of_build hbuild
  have hreach : t.Reachable 4 :=
    (Reachable.root.child ((hn.paired 0 1).2 hgrandparent)).child ((hn.paired 1 4).2 hparent)
  have hmember : t.MemberOf SiblingGroups.standard 4 1 := by
    refine ⟨hreach, hparent, hrule, hlarger, fun id hmem => hbottom id ?_ hmem⟩
    cases hp : (t.node id).parent with
    | none => simp [ancestors_eq_nil hp] at hmem
    | some p => exact lt_size_of_parent hp
  obtain ⟨next, hnext, hreaches⟩ := group_within_two_steps hbuild hmember hcovers hplain
    (Span.Contains.refl _)
  cases hgrow.symm.trans hnext
  exact ⟨t, hbuild, hmember, hcovers, hplain, hgrow, (hreaches.resolve_left hshort).2⟩

end SyntaxTree

end SelectionGrowth
