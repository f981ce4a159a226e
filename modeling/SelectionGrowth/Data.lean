import SelectionGrowth.Table

/-!
# Structured data

Messages and settings files arrive as trees of plain values. Both written forms
that the library reads, JSON and TOML, produce the same trees.

## Main definitions

- `Data` — a tree of values
- `Data.field?` — a field of a record
-/

namespace SelectionGrowth

/--
A tree of values. A real number and a point in time keep only their written
form, because nothing computes with them. Field names of a record are distinct.
-/
inductive Data where
  | null
  | bool (value : Bool)
  | int (value : Int)
  | real (written : String)
  | time (written : String)
  | text (value : String)
  | list (items : List Data)
  | record (fields : List (String × Data))

namespace Data

instance : Inhabited Data :=
  ⟨null⟩

def field? (d : Data) (name : String) : Option Data :=
  match d with
  | record fields => Table.find? name fields
  | _ => none

/-- A natural number not above a bound. -/
def natUpTo? (bound : Nat) : Data → Option Nat
  | int (.ofNat n) => if n ≤ bound then some n else none
  | _ => none

def bool? : Data → Option Bool
  | bool value => some value
  | _ => none

def text? : Data → Option String
  | text value => some value
  | _ => none

def list? : Data → Option (List Data)
  | list items => some items
  | _ => none

end Data

end SelectionGrowth
