import SelectionGrowth.Syntax.Builder

/-!
# Parser listings

A parser reports its result as a preorder listing of all nodes with their
depths. A cursor walks over the listing and opens and closes the nodes of a syntax
tree as it comes to them and leaves them.

## Main definitions

- `Listing` — the nodes of a parse in preorder, the root first
- `Listing.Cursor` — a place in a listing, with its moves down, sideways and up
- `Listing.Cursor.walk` — the build steps of a walk from a place to the end of the listing
- `Listing.replay` — the build steps of a walk over a whole listing
- `Listing.steps` — the same steps, read off the depths
- `SyntaxTree.ofListing` — the tree of a listing

## Main statements

- `Listing.Cursor.walk_eq` — a walk closes as many nodes as the depths say
- `Listing.replay_eq_steps` — a walk over a whole listing takes the steps of the listing

## Design notes

A parser may start the root after leading blanks and end it before trailing
ones. The tree's root covers the whole text: it starts at zero and ends at the
end of the text, or where the parser ended it if that is further.
-/

namespace SelectionGrowth

/-- One node of a listing. The root, and only the root, has depth zero. -/
structure ListedNode where
  depth : Nat
  name : String
  start : Nat
  stop : Nat
deriving DecidableEq

/-- How deep a node other than the first lies: below the root, whatever its depth. -/
def ListedNode.level (n : ListedNode) : Nat :=
  max 1 n.depth

/-- The result of a parse. -/
structure Listing where
  hasError : Bool
  nodes : List ListedNode
deriving DecidableEq

namespace Listing

/--
A place in a listing that is read from front to back: the node there, the nodes
around it from its parent up to the root, and the nodes not come to yet.
-/
structure Cursor where
  node : ListedNode
  above : List ListedNode
  rest : List ListedNode

namespace Cursor

def depth (c : Cursor) : Nat :=
  c.above.length

/-- Moves down: the next node, if it lies deeper. -/
def firstChild? (c : Cursor) : Option Cursor :=
  match c.rest with
  | [] => none
  | n :: rest => if c.depth < n.level then some ⟨n, c.node :: c.above, rest⟩ else none

/-- Moves sideways: the next node, if it lies no higher. The root has no siblings. -/
def nextSibling? (c : Cursor) : Option Cursor :=
  match c.above, c.rest with
  | _ :: _, n :: rest => if c.depth ≤ n.level then some ⟨n, c.above, rest⟩ else none
  | _, _ => none

def parent? (c : Cursor) : Option Cursor :=
  match c.above with
  | [] => none
  | parent :: above => some ⟨parent, above, c.rest⟩

theorem depth_lt_of_parent? {c up : Cursor} (h : c.parent? = some up) : up.depth < c.depth := by
  obtain ⟨node, above, rest⟩ := c
  cases above with
  | nil => exact nomatch h
  | cons parent above =>
    cases h
    exact Nat.lt_succ_self _

theorem length_rest_of_firstChild? {c next : Cursor} (h : c.firstChild? = some next) :
    next.rest.length < c.rest.length := by
  obtain ⟨node, above, rest⟩ := c
  cases rest with
  | nil => exact nomatch h
  | cons n rest =>
    obtain ⟨-, hnext⟩ := Option.ite_none_right_eq_some.1 h
    cases hnext
    exact Nat.lt_succ_self _

theorem length_rest_of_nextSibling? {c next : Cursor} (h : c.nextSibling? = some next) :
    next.rest.length < c.rest.length := by
  obtain ⟨node, above, rest⟩ := c
  cases above with
  | nil => exact nomatch h
  | cons parent above =>
    cases rest with
    | nil => exact nomatch h
    | cons n rest =>
      obtain ⟨-, hnext⟩ := Option.ite_none_right_eq_some.1 h
      cases hnext
      exact Nat.lt_succ_self _

theorem rest_of_parent? {c up : Cursor} (h : c.parent? = some up) : up.rest = c.rest := by
  obtain ⟨node, above, rest⟩ := c
  cases above with
  | nil => exact nomatch h
  | cons parent above =>
    cases h
    rfl

/--
Leaves a node that has just been closed: moves sideways if that is possible, else
up to a node that is then closed as well, and so on. Below the root there is
nothing left to move to, and the root itself is not closed.
-/
def leave (c : Cursor) : List BuildStep × Option Cursor :=
  match c.nextSibling? with
  | some next => ([], some next)
  | none =>
    match _ : c.parent? with
    | none => ([], none)
    | some up =>
      if up.depth = 0 then ([], none)
      else
        let (closing, next) := up.leave
        (.finish up.node.stop :: closing, next)
termination_by c.depth
decreasing_by exact depth_lt_of_parent? ‹_›

theorem length_rest_of_leave (c : Cursor) {next : Cursor} (h : c.leave.2 = some next) :
    next.rest.length < c.rest.length := by
  fun_induction leave c with
  | case1 c sibling hsibling =>
    cases h
    exact length_rest_of_nextSibling? hsibling
  | case2 => exact nomatch h
  | case3 => exact nomatch h
  | case4 c _ up hup _ closing other hleave ih =>
    rw [← rest_of_parent? hup]
    exact ih (by rw [hleave]; exact h)

/-- The steps of a walk from the node at a cursor through all nodes after it. -/
def walk (kinds : KindTable) (c : Cursor) : List BuildStep :=
  .start (kinds.kindOf c.node.name) c.node.name c.node.start ::
    match _ : c.firstChild? with
    | some child => child.walk kinds
    | none =>
      .finish c.node.stop ::
        match _ : c.leave with
        | (closing, some next) => closing ++ next.walk kinds
        | (closing, none) => closing
termination_by c.rest.length
decreasing_by
  · exact length_rest_of_firstChild? ‹_›
  · exact length_rest_of_leave c (by rw [‹c.leave = _›])

end Cursor

/-- The steps of a walk over a whole listing, which has its own ways with the root. -/
def replay (kinds : KindTable) (textLength : Nat) (listing : Listing) : List BuildStep :=
  let mark := if listing.hasError then [BuildStep.error] else []
  match listing.nodes with
  | [] => mark
  | root :: rest =>
    let below :=
      match (Cursor.mk root [] rest).firstChild? with
      | some child => child.walk kinds
      | none => []
    mark ++ .start (kinds.kindOf root.name) root.name 0 ::
      (below ++ [.finish (max textLength root.stop)])

-- ════════════════════════════════════════════════════════════════════════
-- Steps from depths
-- ════════════════════════════════════════════════════════════════════════

/--
The steps for the nodes below the root. `ends` holds the ends of the nodes that
are still open below the root, the innermost first; a node of depth `d` is
preceded by closing all but `d - 1` of them.
-/
def stepsBelow (kinds : KindTable) : (ends : List Nat) → List ListedNode → List BuildStep
  | ends, [] => ends.map BuildStep.finish
  | ends, n :: rest =>
    let closing := ends.length + 1 - n.depth
    (ends.take closing).map BuildStep.finish ++
      .start (kinds.kindOf n.name) n.name n.start ::
        stepsBelow kinds (n.stop :: ends.drop closing) rest

def steps (kinds : KindTable) (textLength : Nat) (listing : Listing) : List BuildStep :=
  let mark := if listing.hasError then [BuildStep.error] else []
  match listing.nodes with
  | [] => mark
  | root :: rest =>
    mark ++ .start (kinds.kindOf root.name) root.name 0 ::
      (stepsBelow kinds [] rest ++ [.finish (max textLength root.stop)])

namespace Cursor

theorem leave_of_sibling {c next : Cursor} (h : c.nextSibling? = some next) :
    c.leave = ([], some next) := by
  rw [leave, h]

theorem leave_of_parent {c up : Cursor} (hsibling : c.nextSibling? = none)
    (hup : c.parent? = some up) (hdepth : up.depth ≠ 0) :
    c.leave = (.finish up.node.stop :: up.leave.1, up.leave.2) := by
  rw [leave, hsibling]
  dsimp only
  split
  · next hnone => exact nomatch hup.symm.trans hnone
  · next other hother =>
    cases hup.symm.trans hother
    exact if_neg hdepth

theorem leave_of_top {c up : Cursor} (hsibling : c.nextSibling? = none)
    (hup : c.parent? = some up) (hdepth : up.depth = 0) : c.leave = ([], none) := by
  rw [leave, hsibling]
  dsimp only
  split
  · rfl
  · next other hother =>
    cases hup.symm.trans hother
    exact if_pos hdepth

/-- With no nodes left, leaving closes all nodes up to the root. -/
theorem leave_of_nil (node root : ListedNode) (inner : List ListedNode) :
    leave ⟨node, inner ++ [root], []⟩ =
      ((inner.map ListedNode.stop).map BuildStep.finish, none) := by
  induction inner generalizing node with
  | nil => exact leave_of_top rfl rfl rfl
  | cons parent inner ih =>
    have hbelow : depth ⟨parent, inner ++ [root], []⟩ ≠ 0 := by simp [depth]
    rw [leave_of_parent rfl rfl hbelow, ih]
    rfl

/-- Leaving closes the nodes that do not lie around the next one, and moves there. -/
theorem leave_of_cons (node root n : ListedNode) (inner rest : List ListedNode)
    (h : n.depth ≤ inner.length + 1) :
    leave ⟨node, inner ++ [root], n :: rest⟩ =
      (((inner.map ListedNode.stop).take (inner.length + 1 - n.depth)).map BuildStep.finish,
        some ⟨n, inner.drop (inner.length + 1 - n.depth) ++ [root], rest⟩) := by
  induction inner generalizing node with
  | nil =>
    have hlevel : depth ⟨node, [root], n :: rest⟩ ≤ n.level := Nat.le_max_left 1 n.depth
    have hnext : nextSibling? ⟨node, [root], n :: rest⟩ = some ⟨n, [root], rest⟩ := if_pos hlevel
    rw [List.nil_append, leave_of_sibling hnext]
    simp
  | cons parent inner ih =>
    have hdepth : depth ⟨node, parent :: (inner ++ [root]), n :: rest⟩ = inner.length + 2 := by
      simp [depth]
    by_cases hsibling : inner.length + 2 ≤ n.depth
    · have hlevel : depth ⟨node, parent :: (inner ++ [root]), n :: rest⟩ ≤ n.level := by
        rw [hdepth]
        exact Nat.le_trans hsibling (Nat.le_max_right 1 n.depth)
      have hnone : (parent :: inner).length + 1 - n.depth = 0 := by
        rw [List.length_cons]
        omega
      rw [hnone]
      exact leave_of_sibling (if_pos hlevel)
    · have hlevel : ¬ depth ⟨node, parent :: (inner ++ [root]), n :: rest⟩ ≤ n.level := by
        rw [hdepth, ListedNode.level]
        omega
      have hbelow : depth ⟨parent, inner ++ [root], n :: rest⟩ ≠ 0 := by simp [depth]
      have hsome : (parent :: inner).length + 1 - n.depth = inner.length + 1 - n.depth + 1 := by
        rw [List.length_cons]
        omega
      have hnext : nextSibling? ⟨node, parent :: (inner ++ [root]), n :: rest⟩ = none :=
        if_neg hlevel
      rw [hsome, List.cons_append, leave_of_parent hnext rfl hbelow, ih parent (by omega)]
      rfl

theorem walk_of_child (kinds : KindTable) {c child : Cursor} (h : c.firstChild? = some child) :
    c.walk kinds = .start (kinds.kindOf c.node.name) c.node.name c.node.start ::
      child.walk kinds := by
  rw [walk]
  split
  · next other hother =>
    cases h.symm.trans hother
    rfl
  · next hnone => exact nomatch h.symm.trans hnone

theorem walk_of_leaf (kinds : KindTable) {c : Cursor} (h : c.firstChild? = none) :
    c.walk kinds = .start (kinds.kindOf c.node.name) c.node.name c.node.start ::
      .finish c.node.stop :: (c.leave.1 ++ c.leave.2.elim [] (walk kinds)) := by
  rw [walk]
  split
  · next child hchild => exact nomatch h.symm.trans hchild
  · split
    · next closing next hleave => rw [hleave, Option.elim_some]
    · next closing hleave => rw [hleave, Option.elim_none, List.append_nil]

/-- A walk closes as many nodes as the depths say. -/
theorem walk_eq (kinds : KindTable) (node root : ListedNode) (inner rest : List ListedNode) :
    walk kinds ⟨node, inner ++ [root], rest⟩ =
      .start (kinds.kindOf node.name) node.name node.start ::
        stepsBelow kinds (node.stop :: inner.map ListedNode.stop) rest := by
  induction rest generalizing node inner with
  | nil =>
    rw [walk_of_leaf kinds rfl, leave_of_nil, Option.elim_none, List.append_nil]
    rfl
  | cons n rest ih =>
    have hdepth : depth ⟨node, inner ++ [root], n :: rest⟩ = inner.length + 1 := by
      simp [depth]
    have hends : (node.stop :: inner.map ListedNode.stop).length = inner.length + 1 := by
      simp
    rw [stepsBelow, hends]
    by_cases hchild : inner.length + 1 < n.depth
    · have hlevel : depth ⟨node, inner ++ [root], n :: rest⟩ < n.level := by
        rw [hdepth]
        exact Nat.lt_of_lt_of_le hchild (Nat.le_max_right 1 n.depth)
      have hnone : inner.length + 1 + 1 - n.depth = 0 := by omega
      have hmove : firstChild? ⟨node, inner ++ [root], n :: rest⟩ =
          some ⟨n, node :: inner ++ [root], rest⟩ := if_pos hlevel
      rw [walk_of_child kinds hmove, hnone, ih n (node :: inner)]
      rfl
    · have hlevel : ¬ depth ⟨node, inner ++ [root], n :: rest⟩ < n.level := by
        rw [hdepth, ListedNode.level]
        omega
      have hsome : inner.length + 1 + 1 - n.depth = inner.length + 1 - n.depth + 1 := by omega
      have hmove : firstChild? ⟨node, inner ++ [root], n :: rest⟩ = none := if_neg hlevel
      rw [walk_of_leaf kinds hmove, leave_of_cons node root n inner rest (by omega), hsome,
        Option.elim_some, ih, List.map_drop]
      rfl

end Cursor

/-- A walk over a whole listing takes the steps of the listing. -/
theorem replay_eq_steps (kinds : KindTable) (textLength : Nat) (listing : Listing) :
    listing.replay kinds textLength = listing.steps kinds textLength := by
  unfold replay steps
  cases listing.nodes with
  | nil => rfl
  | cons root rest =>
    cases rest with
    | nil => rfl
    | cons n rest =>
      have hlevel : Cursor.depth ⟨root, [], n :: rest⟩ < n.level := Nat.le_max_left 1 n.depth
      have hchild : Cursor.firstChild? ⟨root, [], n :: rest⟩ = some ⟨n, [root], rest⟩ :=
        if_pos hlevel
      have hwalk := Cursor.walk_eq kinds n root [] rest
      rw [List.nil_append] at hwalk
      simp only [hchild, hwalk, stepsBelow, List.take_nil, List.drop_nil, List.map_nil,
        List.nil_append]

end Listing

/-- The tree of a listing, for a text of a given length and revision. -/
def SyntaxTree.ofListing (kinds : KindTable) (textLength : Nat) (revision : Int)
    (listing : Listing) : Except Failure SyntaxTree :=
  SyntaxTree.build revision (listing.replay kinds textLength)

theorem SyntaxTree.ofListing_eq_build (kinds : KindTable) (textLength : Nat) (revision : Int)
    (listing : Listing) : SyntaxTree.ofListing kinds textLength revision listing =
      SyntaxTree.build revision (listing.steps kinds textLength) := by
  rw [ofListing, Listing.replay_eq_steps]

end SelectionGrowth
