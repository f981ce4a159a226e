import SelectionGrowth.Failure
import SelectionGrowth.Text.Digits
import SelectionGrowth.Text.Document
import SelectionGrowth.Text.Split

/-!
# Positions on the command line

A position is written as a line and a column with a colon between them. Blanks
around either number are skipped, and a number may have a plus sign.

## Main definitions

- `CommandLine.isWhitespace` — the white space of Unicode
- `CommandLine.number?` — a number that fits a coordinate
- `CommandLine.position` — the position that a text describes
- `CommandLine.renderRange` — a range as it is printed
-/

namespace SelectionGrowth.CommandLine

/-- The first and last characters of each run of white space. -/
def whitespaceRuns : List (Nat × Nat) :=
  [(0x0009, 0x000D), (0x0020, 0x0020), (0x0085, 0x0085), (0x00A0, 0x00A0), (0x1680, 0x1680),
    (0x2000, 0x200A), (0x2028, 0x2029), (0x202F, 0x202F), (0x205F, 0x205F), (0x3000, 0x3000)]

def isWhitespace (c : Char) : Bool :=
  whitespaceRuns.any fun run => run.1 ≤ c.toNat && c.toNat ≤ run.2

def trim (cs : List Char) : List Char :=
  Text.trimEnds isWhitespace cs

/-- A number in decimal digits, not above a bound; one plus sign may come first. -/
def number? (bound : Nat) (cs : List Char) : Option Nat :=
  let digits :=
    match cs with
    | '+' :: rest => rest
    | _ => cs
  if digits.isEmpty then none else (Text.number? 10 digits).filter (· ≤ bound)

/-- The position that a text describes. -/
def position? (cs : List Char) : Option Position :=
  match Text.cutAt (· = ':') cs with
  | (_, none) => none
  | (before, some after) =>
    match number? Text.maxCoordinate (trim before), number? Text.maxCoordinate (trim after) with
    | some line, some column => some ⟨line, column⟩
    | _, _ => none

/-- The position that a text describes, or the fault that it describes none. -/
def position (text : String) : Except Failure Position :=
  match position? text.toList with
  | some p => .ok p
  | none => .error (.outOfRange (.malformedPosition text))

def renderPosition (p : Position) : String :=
  toString p.line ++ ":" ++ toString p.column

def renderRange (r : Range) : String :=
  renderPosition r.start ++ "-" ++ renderPosition r.stop

end SelectionGrowth.CommandLine
