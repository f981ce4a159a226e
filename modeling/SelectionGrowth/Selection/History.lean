import SelectionGrowth.Table
import SelectionGrowth.Text.Document

/-!
# Selection histories

To shrink a selection, each growth step of a document is remembered and
retraced. Steps of one document form a session in which each step starts where
the one before it ended.

## Main definitions

- `GrowthStep` — a range and the range it grew to
- `History` — the steps of each document, the latest first
- `History.record`, `History.shrink`, `History.clear` — add, retrace and forget steps
-/

namespace SelectionGrowth

/-- A range and the range it grew to. -/
structure GrowthStep where
  source : Range
  target : Range
deriving DecidableEq

/-- The recorded steps of each document, the latest step first. -/
structure History where
  steps : Table String (List GrowthStep)

namespace History

def empty : History :=
  ⟨Table.empty⟩

/-- The steps of one document, the latest first. -/
def stepsOf (h : History) (key : String) : List GrowthStep :=
  (h.steps.get? key).getD []

/-- The steps that a new step continues: all of them if it starts where the latest ended. -/
def continued (steps : List GrowthStep) (source : Range) : List GrowthStep :=
  match steps with
  | [] => []
  | latest :: earlier => if latest.target = source then latest :: earlier else []

/-- Remembers a step. One that does not continue the session starts a new session. -/
def record (h : History) (key : String) (source target : Range) : History :=
  ⟨h.steps.insert key (⟨source, target⟩ :: continued (h.stepsOf key) source)⟩

/--
Retraces the latest step if it ended at `current`: the range it started from,
and the history without it.
-/
def shrink (h : History) (key : String) (current : Range) : Option Range × History :=
  match h.stepsOf key with
  | [] => (none, h)
  | latest :: earlier =>
    if latest.target = current then (some latest.source, ⟨h.steps.insert key earlier⟩)
    else (none, h)

def clear (h : History) (key : String) : History :=
  ⟨h.steps.erase key⟩

/-- The number of steps that can be retraced. -/
def depth (h : History) (key : String) : Nat :=
  (h.stepsOf key).length

end History

end SelectionGrowth
