import SelectionGrowth.Text.Document

/-!
# Content changes

A client reports edits as a list of changes, each located in the text that the
earlier ones produced. Applying them yields the new text and, for incremental
parsing, a description of every replacement in bytes and in points.

## Main definitions

- `Change` — new text for a range, or for the whole document
- `Edit` — a replacement in bytes, with the points of its three ends
- `Change.locate` — where a position falls in a text
- `Change.applyAll` — the new text and the edits that lead to it

## Main statements

- `Change.applyAll_append_fst` — changes may be applied in one go or in several

## Design notes

A change without a range replaces everything, so the edits collected before it
no longer describe anything and are dropped. When a range is reversed the
replaced bytes are empty, but the point reported for their end stays where the
client put it.
-/

namespace SelectionGrowth

/-- New text for a range of a document; without a range, for all of it. -/
structure Change where
  range : Option Range
  text : String
deriving DecidableEq

/-- A row and a byte column. -/
structure Point where
  row : Nat
  column : Nat
deriving DecidableEq

/-- The replacement of the bytes from `startByte` up to `oldEndByte`. -/
structure Edit where
  startByte : Nat
  oldEndByte : Nat
  newEndByte : Nat
  startPoint : Point
  oldEndPoint : Point
  newEndPoint : Point
deriving DecidableEq

namespace Text

/-- Replaces the bytes from `start` up to `stop`. -/
def replaceBytes (cs : List Char) (start stop : Nat) (inserted : List Char) : List Char :=
  takeBytes start cs ++ inserted ++ dropBytes stop cs

/-- The characters after the last line feed. -/
def lastLine (cs : List Char) : List Char :=
  (cs.reverse.takeWhile (· ≠ '\n')).reverse

end Text

namespace Change

/-- The end of a text, as an offset and a point. -/
def endOf (d : Document) : Nat × Point :=
  let stop := d.length
  match d.positionOf? stop with
  | none => (stop, ⟨0, 0⟩)
  | some p =>
    match d.offsetOf? p.line 0 with
    | none => (stop, ⟨0, 0⟩)
    | some lineStart => (stop, ⟨p.line, stop - lineStart⟩)

/-- Where a position falls in a text; one that has no offset falls at the end. -/
def locate (d : Document) (p : Position) : Nat × Point :=
  match d.offsetOf? p.line p.column, d.offsetOf? p.line 0 with
  | some offset, some lineStart => (offset, ⟨p.line, offset - lineStart⟩)
  | _, _ => endOf d

/-- The point reached by writing `inserted` at a point. -/
def advance (start : Point) (inserted : List Char) : Point :=
  if '\n' ∈ inserted then
    ⟨start.row + inserted.count '\n', Text.bytes (Text.lastLine inserted)⟩
  else
    ⟨start.row, start.column + Text.bytes inserted⟩

/-- The edit that puts `inserted` in place of a range of a text. -/
def edit (d : Document) (r : Range) (inserted : List Char) : Edit :=
  let start := locate d r.start
  let stop := locate d r.stop
  { startByte := start.1
    oldEndByte := max stop.1 start.1
    newEndByte := start.1 + Text.bytes inserted
    startPoint := start.2
    oldEndPoint := stop.2
    newEndPoint := advance start.2 inserted }

/-- One change applied to a text and the edits collected so far. -/
def apply (state : String × List Edit) (change : Change) : String × List Edit :=
  match change.range with
  | none => (change.text, [])
  | some r =>
    let e := edit ⟨state.1, 0⟩ r change.text.toList
    (String.ofList
      (Text.replaceBytes state.1.toList e.startByte e.oldEndByte change.text.toList),
      state.2 ++ [e])

/-- The text after all changes, and the edits since the last full replacement. -/
def applyAll (text : String) (changes : List Change) : String × List Edit :=
  changes.foldl apply (text, [])

/-- The text after a change does not depend on the edits before it. -/
theorem foldl_apply_fst (state : String × List Edit) (changes : List Change) :
    (changes.foldl apply state).1 = (applyAll state.1 changes).1 := by
  induction changes generalizing state with
  | nil => rfl
  | cons change changes ih =>
    have hfirst : (apply state change).1 = (apply (state.1, []) change).1 := by
      unfold apply
      split <;> rfl
    have hright : (applyAll state.1 (change :: changes)).1 =
        (applyAll (apply (state.1, []) change).1 changes).1 :=
      ih (apply (state.1, []) change)
    rw [List.foldl_cons, ih, hright, hfirst]

/-- Changes may be applied in one go or in several. -/
theorem applyAll_append_fst (text : String) (changes more : List Change) :
    (applyAll text (changes ++ more)).1 = (applyAll (applyAll text changes).1 more).1 := by
  rw [applyAll, List.foldl_append, foldl_apply_fst]
  rfl

end Change

end SelectionGrowth
