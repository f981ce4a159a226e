import SelectionGrowth.Failure
import SelectionGrowth.Selection.Group

/-!
# Growing a selection

A selection grows to the next larger node around it, until it is the whole
document. The node it grows from is its anchor, the deepest node that covers
it.

## Main definitions

- `Covers` — when a node's span covers a selection
- `SyntaxTree.anchor` — the deepest covering node, found from the root downwards
- `SyntaxTree.grow` — the next larger selection, if there is one
- `SyntaxTree.chain` — all further selections, innermost first
- `SyntaxTree.growthsUpTo` — the same, stopped after a number of steps

## Main statements

- `SyntaxTree.strictlyContains_of_grow` — each growth is strict, so chains end

## Design notes

A caret is covered by a node that holds the byte after it, so a caret between
two siblings belongs to the second. A nonempty selection is covered by a node
that contains it.
-/

namespace SelectionGrowth

/-- A span covers a selection: it holds the byte at a caret, or all of a wider selection. -/
def Covers (outer current : Span) : Prop :=
  if current.IsCaret then outer.start ≤ current.start ∧ current.start < outer.stop
  else outer.Contains current

instance (outer current : Span) : Decidable (Covers outer current) := by
  unfold Covers
  infer_instance

namespace SyntaxTree

/-- Follows the first covering child from a node downwards, to a node without one. -/
def descend (t : SyntaxTree) (current : Span) (id : Nat) : Nat :=
  match h : (t.node id).children.find? fun child => Covers (t.span child) current with
  | none => id
  | some child =>
    have := t.linked.child_lt id child (List.mem_of_find?_eq_some h)
    t.descend current child
termination_by t.nodes.size - id

/-- The node that a selection grows from. -/
def anchor (t : SyntaxTree) (current : Span) : Nat :=
  t.descend current rootId

/-- The nearest span above a node that is strictly around a selection. -/
def enclosing? (t : SyntaxTree) (id : Nat) (current : Span) : Option Span :=
  ((t.ancestors id).map t.span).find? fun span => span.StrictlyContains current

/--
The next larger selection. A selection inside a group member grows to the group;
otherwise one strictly inside its anchor grows to the anchor, and one equal to
its anchor grows to the nearest larger node above. The whole document does not
grow, and a selection that reaches past the document is a fault.
-/
def grow (t : SyntaxTree) (groups : SiblingGroups) (current : Span) :
    Except Failure (Option Span) :=
  if t.length < current.stop then
    .error (.outOfRange (.selectionPastEnd current t.length))
  else
    let anchor := t.anchor current
    match groups.target? t anchor current with
    | some group => .ok (some (t.span group))
    | none =>
      if (t.span anchor).StrictlyContains current then .ok (some (t.span anchor))
      else .ok (t.enclosing? anchor current)

/-- Growth is strict, and only a selection within the document grows. -/
theorem strictlyContains_of_grow {t : SyntaxTree} {groups : SiblingGroups} {current next : Span}
    (h : t.grow groups current = .ok (some next)) :
    next.StrictlyContains current ∧ current.stop ≤ t.length := by
  unfold grow at h
  split at h
  · exact nomatch h
  · next hle =>
    refine ⟨?_, Nat.le_of_not_lt hle⟩
    simp only at h
    split at h
    · next group htarget =>
      cases h
      exact SiblingGroups.strictlyContains_of_target? htarget
    · split at h
      · next hstrict =>
        cases h
        exact hstrict
      · simp only [Except.ok.injEq, enclosing?] at h
        have hfound := List.find?_some h
        exact of_decide_eq_true hfound

/-- Each growth leaves less room around the selection. -/
theorem room_lt_of_grow {t : SyntaxTree} {groups : SiblingGroups} {current next : Span}
    (h : t.grow groups current = .ok (some next)) :
    next.start + (t.length + 1 - next.stop) < current.start + (t.length + 1 - current.stop) := by
  obtain ⟨hstrict, hle⟩ := strictlyContains_of_grow h
  have hcontains := hstrict.1
  have hlt := hstrict.lt_or_lt
  unfold Span.Contains at hcontains
  omega

/-- All selections that a selection grows through, innermost first, itself left out. -/
def chain (t : SyntaxTree) (groups : SiblingGroups) (current : Span) :
    Except Failure (List Span) :=
  match h : t.grow groups current with
  | .error failure => .error failure
  | .ok none => .ok []
  | .ok (some next) =>
    have := room_lt_of_grow h
    (t.chain groups next).map (next :: ·)
termination_by current.start + (t.length + 1 - current.stop)

/--
The selections that a selection grows through, each passed to `visit`, stopped
after `limit` of them. The first fault, of a growth or of a visit, is the
result.
-/
def growthsUpTo {α : Type} (t : SyntaxTree) (groups : SiblingGroups)
    (visit : Span → Except Failure α) : (limit : Nat) → Span → Except Failure (List α)
  | 0, _ => .ok []
  | limit + 1, current =>
    match t.grow groups current with
    | .error failure => .error failure
    | .ok none => .ok []
    | .ok (some next) => do
      let seen ← visit next
      let rest ← t.growthsUpTo groups visit limit next
      return seen :: rest

end SyntaxTree

end SelectionGrowth
