import SelectionGrowth.Selection.Growth
import SelectionGrowth.Text.Document

/-!
# Selection requests

A request names a document and speaks of lines and columns. It is answered over
a snapshot: a text and a syntax tree that agree in revision and in length.

## Main definitions

- `Source` — where texts and trees come from
- `Source.snapshot` — a text and a tree that agree
- `Source.expand` — the answer to a request to grow a range
- `SelectionRange` — nested ranges, each with the next larger one as its parent
- `Source.selectionRanges` — the answer to a request for the ranges around positions
-/

namespace SelectionGrowth

/-- Supplies the text and the syntax tree of a document. -/
structure Source where
  document? : String → Option Document
  tree : String → Int → Except Failure SyntaxTree

/-- A range and the ranges around it. -/
inductive SelectionRange where
  | outermost (range : Range)
  | within (range : Range) (parent : SelectionRange)
deriving DecidableEq

namespace SelectionRange

/-- The ranges from the innermost outwards. -/
def ranges : SelectionRange → List Range
  | outermost range => [range]
  | within range parent => range :: parent.ranges

/-- Puts a range inside the ranges around it. -/
def nest (range : Range) : Option SelectionRange → SelectionRange
  | none => outermost range
  | some parent => within range parent

/--
The nested ranges of spans given innermost first. Spans are converted from the
outermost inwards, and the first fault is the result.
-/
def ofSpans? (d : Document) : List Span → Except Failure (Option SelectionRange)
  | [] => .ok none
  | span :: rest => do
    let around ← ofSpans? d rest
    let range ← d.range span
    return some (nest range around)

end SelectionRange

namespace Source

/-- The text and the tree of a document, which must agree in revision and in length. -/
def snapshot (source : Source) (key : String) : Except Failure (Document × SyntaxTree) :=
  match source.document? key with
  | none => .error (.outOfRange (.unknownDocument key))
  | some document => do
    let tree ← source.tree key document.revision
    if tree.revision ≠ document.revision then
      .error (.mismatch (.revisions tree.revision document.revision))
    else if tree.length ≠ document.length then
      .error (.mismatch (.lengths tree.length document.length))
    else
      .ok (document, tree)

/-- A snapshot is a text and a tree that were supplied and agree. -/
theorem snapshot_eq_ok_iff {source : Source} {key : String} {document : Document}
    {tree : SyntaxTree} : source.snapshot key = .ok (document, tree) ↔
      source.document? key = some document ∧ source.tree key document.revision = .ok tree ∧
      tree.revision = document.revision ∧ tree.length = document.length := by
  unfold snapshot
  cases source.document? key with
  | none => simp
  | some found =>
    simp only [bind, Except.bind, Option.some.injEq]
    constructor
    · intro h
      split at h
      · simp at h
      · next supplied hsupplied =>
        split at h
        · simp at h
        · next hrevision =>
          split at h
          · simp at h
          · next hlength =>
            simp only [Except.ok.injEq, Prod.mk.injEq] at h
            obtain ⟨rfl, rfl⟩ := h
            exact ⟨rfl, hsupplied, Decidable.of_not_not hrevision, Decidable.of_not_not hlength⟩
    · rintro ⟨rfl, hsupplied, hrevision, hlength⟩
      simp [hsupplied, hrevision, hlength]

/-- The range that a range grows to, if it is not the whole document. -/
def expand (source : Source) (groups : SiblingGroups) (key : String) (range : Range) :
    Except Failure (Option Range) := do
  let (document, tree) ← source.snapshot key
  let current ← document.span range
  match ← tree.grow groups current with
  | none => return none
  | some next => return some (← document.range next)

/-- The nested ranges around a position; a position that does not grow is its own range. -/
def rangesAround (document : Document) (tree : SyntaxTree) (groups : SiblingGroups)
    (position : Position) : Except Failure SelectionRange := do
  let caret ← document.span ⟨position, position⟩
  let chain ← tree.chain groups caret
  match ← SelectionRange.ofSpans? document chain with
  | some selection => return selection
  | none => return .outermost (← document.range (Span.caret caret.start))

/-- The nested ranges around each position; the first fault is the result. -/
def selectionRanges (source : Source) (groups : SiblingGroups) (key : String)
    (positions : List Position) : Except Failure (List SelectionRange) := do
  let (document, tree) ← source.snapshot key
  positions.mapM (rangesAround document tree groups)

end Source

end SelectionGrowth
