import SelectionGrowth.Text.Units

/-!
# Lines of a text

Only a line feed ends a line. A column addresses a line's characters up to the
run of carriage returns that stands directly before its line feed; the last
line, which no line feed ends, keeps its carriage returns.

## Main definitions

- `Text.splitAtLine` — a text cut at the start of a line
- `Text.line` — the characters up to the next line feed
- `Text.reach` — the part of a line that columns address
- `Text.lineNumber` — the line that an offset lies on
- `Text.byteColumn?` — a UTF-16 column widened to a byte column
- `Text.unitColumn?` — a byte column narrowed to a UTF-16 column
-/

namespace SelectionGrowth.Text

/-- The largest line or column number that a client can send. -/
def maxCoordinate : Nat := 4294967295

/-- The number of lines: one more than the number of line feeds. -/
def lineCount (cs : List Char) : Nat :=
  cs.count '\n' + 1

/-- Cuts a text at the start of line `n`, counted from zero. -/
def splitAtLine : Nat → List Char → Option (List Char × List Char)
  | 0, cs => some ([], cs)
  | _ + 1, [] => none
  | n + 1, c :: cs =>
    (splitAtLine (if c = '\n' then n else n + 1) cs).map fun cut => (c :: cut.1, cut.2)

/-- The offsets at which lines start, other than the first, after `passed` bytes. -/
def lineStarts (passed : Nat) : List Char → List Nat
  | [] => []
  | c :: cs =>
    let next := passed + c.utf8Size
    if c = '\n' then next :: lineStarts next cs else lineStarts next cs

/-- The line that an offset lies on: so many lines, other than the first, start no later. -/
def lineNumber (cs : List Char) (offset : Nat) : Nat :=
  ((lineStarts 0 cs).takeWhile (· ≤ offset)).length

/-- The characters before the next line feed. -/
def line (rest : List Char) : List Char :=
  rest.takeWhile (· ≠ '\n')

/-- Drops the carriage returns at the end of a list of characters. -/
def trimReturns : List Char → List Char
  | [] => []
  | c :: cs =>
    match trimReturns cs with
    | [] => if c = '\r' then [] else [c]
    | kept => c :: kept

/-- The part of the line at the head of `rest` that columns address. -/
def reach (rest : List Char) : List Char :=
  if '\n' ∈ rest then trimReturns (line rest) else line rest

/--
Widens a UTF-16 column to a byte column. Each character beyond ASCII that
starts before the column moves it by the difference between its bytes and its
units, until the first such character that starts at or after it. A column that
would leave the range of coordinates has no byte column.

`passed` is the number of bytes of the line before the characters given.
-/
def widen (passed : Nat) : List Char → Nat → Option Nat
  | [], column => some column
  | c :: cs, column =>
    if c.utf8Size = 1 then widen (passed + 1) cs column
    else if passed < column then
      let moved := column + (c.utf8Size - unitSize c)
      if moved ≤ maxCoordinate then widen (passed + c.utf8Size) cs moved else none
    else some column

/-- The byte column of a UTF-16 column of a line. -/
def byteColumn? (line : List Char) (column : Nat) : Option Nat :=
  widen 0 line column

/-- A byte column falls inside a character, after `passed` bytes. Only characters beyond ASCII have
an inside. -/
def splitsCharacter (column passed : Nat) : List Char → Bool
  | [] => false
  | c :: cs =>
    decide (c.utf8Size ≠ 1 ∧ passed < column ∧ column < passed + c.utf8Size) ||
      splitsCharacter column (passed + c.utf8Size) cs

/--
Narrows a byte column to a UTF-16 column. Each character beyond ASCII that ends
no later than the byte column moves the column back by the difference between its
bytes and its units, until the first such character that ends later. A column
that would fall below zero has no UTF-16 column.

`passed` is the number of bytes of the line before the characters given.
-/
def narrow (byteColumn passed : Nat) : List Char → Nat → Option Nat
  | [], column => some column
  | c :: cs, column =>
    if c.utf8Size = 1 then narrow byteColumn (passed + 1) cs column
    else if passed + c.utf8Size ≤ byteColumn then
      let difference := c.utf8Size - unitSize c
      if difference ≤ column then
        narrow byteColumn (passed + c.utf8Size) cs (column - difference)
      else none
    else some column

/-- The UTF-16 column of a byte column of a line. -/
def unitColumn? (line : List Char) (byteColumn : Nat) : Option Nat :=
  narrow byteColumn 0 line byteColumn

/-- The two parts of a cut at a line make up the text. -/
theorem append_of_splitAtLine {n : Nat} {cs before rest : List Char}
    (h : splitAtLine n cs = some (before, rest)) : before ++ rest = cs := by
  induction cs generalizing n before with
  | nil =>
    cases n with
    | zero =>
      simp only [splitAtLine, Option.some.injEq, Prod.mk.injEq] at h
      simp [← h.1, ← h.2]
    | succ n => simp [splitAtLine] at h
  | cons c cs ih =>
    cases n with
    | zero =>
      simp only [splitAtLine, Option.some.injEq, Prod.mk.injEq] at h
      simp [← h.1, ← h.2]
    | succ n =>
      simp only [splitAtLine, Option.map_eq_some_iff, Prod.mk.injEq] at h
      obtain ⟨⟨b, r⟩, hcut, hb, hr⟩ := h
      subst hb hr
      simp [ih hcut]

end SelectionGrowth.Text
