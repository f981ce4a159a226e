import SelectionGrowth.Syntax.Tree

/-!
# Sibling groups

Some clauses are no sensible selection of their own: a `catch` means little
without its `try`. A table of rules names such member kinds and the kind of
statement that groups them, and a selection inside a member grows straight to
the group.

## Main definitions

- `SiblingGroup` — one rule
- `SiblingGroups.groupFor?` — the group kind of a member kind, by the first rule
- `SiblingGroups.standard` — the rules used unless settings replace them
- `SiblingGroups.target?` — the group node that a selection grows to
-/

namespace SelectionGrowth

/-- A selection inside a `member` grows to the enclosing `group`. -/
structure SiblingGroup where
  member : Kind
  group : Kind
deriving DecidableEq

/-- A table of rules, in order of precedence. -/
abbrev SiblingGroups := List SiblingGroup

namespace SiblingGroups

/-- The rules used unless settings replace them. -/
def standard : SiblingGroups :=
  [⟨.catchClause, .tryStatement⟩, ⟨.finallyClause, .tryStatement⟩, ⟨.elseClause, .ifStatement⟩]

/-- The group kind of a member kind: the first rule for it counts. -/
def groupFor? (groups : SiblingGroups) (member : Kind) : Option Kind :=
  (groups.find? fun rule => rule.member = member).map SiblingGroup.group

/--
The member that a selection anchored at a node belongs to, with its group kind:
the node itself if there is a rule for its kind, otherwise its parent.
-/
def memberAt? (groups : SiblingGroups) (t : SyntaxTree) (anchor : Nat) : Option (Nat × Kind) :=
  (anchor :: (t.node anchor).parent.toList).findSome? fun id =>
    (groups.groupFor? (t.node id).kind).map fun group => (id, group)

/--
The group node that a selection grows to: the nearest node above the member that
has the group kind and a span strictly around the selection.
-/
def target? (groups : SiblingGroups) (t : SyntaxTree) (anchor : Nat) (current : Span) :
    Option Nat :=
  match groups.memberAt? t anchor with
  | none => none
  | some (member, group) =>
    (t.ancestors member).find? fun id =>
      (t.node id).kind = group ∧ (t.span id).StrictlyContains current

/-- A group target strictly contains the selection. -/
theorem strictlyContains_of_target? {groups : SiblingGroups} {t : SyntaxTree} {anchor id : Nat}
    {current : Span} (h : groups.target? t anchor current = some id) :
    (t.span id).StrictlyContains current := by
  unfold target? at h
  split at h
  · exact nomatch h
  · have := List.find?_some h
    exact (of_decide_eq_true this).2

end SiblingGroups

end SelectionGrowth
