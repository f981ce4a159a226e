import SelectionGrowth.Failure
import SelectionGrowth.Text.Lines

/-!
# Documents

A document is a text at one revision. Clients speak of lines and columns, the
syntax tree speaks of byte offsets; a document converts between the two.

## Main definitions

- `Position`, `Range` — a line and a UTF-16 column, and a pair of them
- `Document.offsetOf?` — the byte offset of a position
- `Document.lineColumn?` — the line and the byte column of a byte offset
- `Document.positionOf?` — the position of a byte offset
- `Document.range`, `Document.span` — the same for both ends of a selection

## Design notes

`offsetOf?` is lenient inside a line (a column past its end means the end) and
strict about lines. `positionOf?` is strict: an offset past the end of the text
or inside a character has no position.
-/

namespace SelectionGrowth

/-- A line and a UTF-16 column, both counted from zero. -/
structure Position where
  line : Nat
  column : Nat
deriving DecidableEq

/-- Two positions as a client gives them, in any order. -/
structure Range where
  start : Position
  stop : Position
deriving DecidableEq

/-- A text at one revision. -/
structure Document where
  text : String
  revision : Int
deriving DecidableEq

namespace Document

def chars (d : Document) : List Char :=
  d.text.toList

def length (d : Document) : Nat :=
  Text.bytes d.chars

def lineCount (d : Document) : Nat :=
  Text.lineCount d.chars

/--
The byte offset of a line and a UTF-16 column. There is none when the line does
not exist or the column cannot be widened. A column past the part of the line
that columns address means the end of that part, and a column inside a
character means the start of the character.
-/
def offsetOf? (d : Document) (line column : Nat) : Option Nat :=
  match Text.splitAtLine line d.chars with
  | none => none
  | some (before, rest) =>
    (Text.byteColumn? (Text.line rest) column).map fun byteColumn =>
      Text.bytes before + Text.floorBoundary (Text.reach rest) byteColumn

/-- The line of an offset with its characters, and the byte column there. There is none past the end
of the text or inside a character. -/
def lineColumn? (d : Document) (offset : Nat) : Option (Nat × List Char × Nat) :=
  if d.length < offset then none
  else
    let number := Text.lineNumber d.chars offset
    match Text.splitAtLine number d.chars with
    | none => none
    | some (before, rest) =>
      let column := offset - Text.bytes before
      if Text.splitsCharacter column 0 (Text.line rest) then none
      else some (number, Text.line rest, column)

/--
The position of a byte offset. There is none past the end of the text or inside
a character.
-/
def positionOf? (d : Document) (offset : Nat) : Option Position :=
  match d.lineColumn? offset with
  | none => none
  | some (number, line, byteColumn) => (Text.unitColumn? line byteColumn).map (⟨number, ·⟩)

/-- The position of an offset, or the fault that there is none. -/
def position (d : Document) (offset : Nat) : Except Failure Position :=
  match d.positionOf? offset with
  | some p => .ok p
  | none => .error (.outOfRange (.offsetOutside offset d.length))

/-- The offset of a position, or the fault that there is none. -/
def offset (d : Document) (p : Position) : Except Failure Nat :=
  match d.offsetOf? p.line p.column with
  | some o => .ok o
  | none => .error (.outOfRange (.positionOutside p.line p.column d.lineCount))

/-- The positions of both ends of a span; a fault at the start is reported first. -/
def range (d : Document) (s : Span) : Except Failure Range := do
  let start ← d.position s.start
  let stop ← d.position s.stop
  return ⟨start, stop⟩

/-- The span between two positions; a fault at the start is reported first. -/
def span (d : Document) (r : Range) : Except Failure Span := do
  let start ← d.offset r.start
  let stop ← d.offset r.stop
  return Span.ofBounds start stop

end Document

end SelectionGrowth
