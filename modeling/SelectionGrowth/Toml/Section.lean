import SelectionGrowth.Data

/-!
# Tables under construction

The tables of a TOML text grow line by line. Where a table came from decides
what may still be added to it: a table opened by a header is not opened again,
a table made by a dotted key is extended by dotted keys only, and a value is
never extended.

## Main definitions

- `Toml.Slot` — a value, a table that can grow, or a list of such tables
- `Toml.assign` — gives a dotted key a value
- `Toml.openTable`, `Toml.appendTable` — the effect of a header
- `Toml.within` — carries out a change inside the table that a header opened
- `Toml.close` — the finished value
-/

namespace SelectionGrowth.Toml

/-- Where a table came from. -/
structure Origin where
  implicit : Bool
  dotted : Bool
deriving DecidableEq

/-- A table opened by its own header. -/
def Origin.header : Origin := ⟨false, false⟩

/-- A table on the way to one opened by a header. -/
def Origin.onTheWay : Origin := ⟨true, false⟩

/-- A table made by a dotted key. -/
def Origin.dottedKey : Origin := ⟨true, true⟩

/-- What a key holds: a finished value, a table, or a list of tables with the latest first. -/
inductive Slot where
  | value (data : Data)
  | table (origin : Origin) (fields : List (String × Slot))
  | tables (latestFirst : List (List (String × Slot)))

/-- The fields of a table under construction. -/
abbrev Fields := List (String × Slot)

/--
Gives a dotted key a value. `dotted` tells whether the fields belong to a table
made by a dotted key and `first` whether the key starts here.
-/
def assignIn (value : Data) : (dotted first : Bool) → List String → Fields → Option Fields
  | _, _, [], _ => none
  | dotted, first, [key], fields =>
    if dotted == first then none
    else
      match Table.find? key fields with
      | some _ => none
      | none => some (fields ++ [(key, .value value)])
  | _, _, key :: rest, fields =>
    match Table.find? key fields with
    | none =>
      (assignIn value true false rest []).map fun inner =>
        fields ++ [(key, .table .dottedKey inner)]
    | some (.table origin inner) =>
      if origin.implicit then
        (assignIn value origin.dotted false rest inner).map fun inner =>
          Table.upsert key (.table origin inner) fields
      else none
    | some (.tables (latest :: earlier)) =>
      (assignIn value false false rest latest).map fun latest =>
        Table.upsert key (.tables (latest :: earlier)) fields
    | some _ => none

/-- Gives a dotted key a value in a table that no dotted key made. -/
def assign (path : List String) (value : Data) (fields : Fields) : Option Fields :=
  assignIn value false true path fields

/-- Carries out a change at the last key of a header, making tables on the way to it. -/
def atHeader (change : String → Fields → Option Fields) : List String → Fields → Option Fields
  | [], _ => none
  | [key], fields => change key fields
  | key :: rest, fields =>
    match Table.find? key fields with
    | none =>
      (atHeader change rest []).map fun inner => fields ++ [(key, .table .onTheWay inner)]
    | some (.table origin inner) =>
      (atHeader change rest inner).map fun inner => Table.upsert key (.table origin inner) fields
    | some (.tables (latest :: earlier)) =>
      (atHeader change rest latest).map fun latest =>
        Table.upsert key (.tables (latest :: earlier)) fields
    | some _ => none

/-- Opens a table at a key: a new one, or one that was only on the way to another. -/
def openTable (key : String) (fields : Fields) : Option Fields :=
  match Table.find? key fields with
  | none => some (fields ++ [(key, .table .header [])])
  | some (.table origin inner) =>
    if origin = .onTheWay then some (Table.upsert key (.table .header inner) fields) else none
  | some _ => none

/-- Adds a table to the list of tables at a key. -/
def appendTable (key : String) (fields : Fields) : Option Fields :=
  match Table.find? key fields with
  | none => some (fields ++ [(key, .tables [[]])])
  | some (.tables latestFirst) => some (Table.upsert key (.tables ([] :: latestFirst)) fields)
  | some _ => none

/-- Carries out a change on the fields of the table that a header opened. -/
def within (change : Fields → Option Fields) : List String → Fields → Option Fields
  | [], fields => change fields
  | key :: rest, fields =>
    match Table.find? key fields with
    | some (.table origin inner) =>
      (within change rest inner).map fun inner => Table.upsert key (.table origin inner) fields
    | some (.tables (latest :: earlier)) =>
      (within change rest latest).map fun latest =>
        Table.upsert key (.tables (latest :: earlier)) fields
    | _ => none

mutual

def closeSlot : Slot → Data
  | .value data => data
  | .table _ fields => .record (closeFields fields)
  | .tables latestFirst => .list (closeTables latestFirst).reverse

def closeFields : Fields → List (String × Data)
  | [] => []
  | (key, slot) :: rest => (key, closeSlot slot) :: closeFields rest

def closeTables : List Fields → List Data
  | [] => []
  | fields :: rest => .record (closeFields fields) :: closeTables rest

end

def close (fields : Fields) : Data :=
  .record (closeFields fields)

end SelectionGrowth.Toml
