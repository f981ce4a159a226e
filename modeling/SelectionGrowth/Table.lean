/-!
# Keyed tables

A finite table holds at most one value for each key. Open documents, recorded
selection steps, kinds of node names and languages are all tables.

## Main definitions

- `Table` — entries in the order in which their keys first arrived
- `Table.get?`, `Table.insert`, `Table.erase` — look-up and the two updates
- `Table.ofList` — the table of a list of pairs, where the last pair of a key counts
- `Table.Enumeration` — an order in which the entries of tables are met

## Main statements

- `Table.get?_insert_self`, `Table.get?_insert_of_ne` — an insertion is seen at its key only
- `Table.get?_erase_self`, `Table.get?_erase_of_ne` — an erasure is seen at its key only
- `Table.insert_insert`, `Table.insert_eq_self` — insertions that undo each other

## Design notes

What a table holds is said by its look-ups, and the order of its entries is an
accident of its past. Whoever goes through all entries of a table does so in an
enumeration, which may be any order at all.
-/

namespace SelectionGrowth

/-- A finite table in which every key stands once. -/
structure Table (κ α : Type) where
  entries : List (κ × α)
  nodup : (entries.map Prod.fst).Nodup

namespace Table

variable {κ α β : Type}

/-- Replaces the value at a key in place, or adds the pair at the end. -/
def upsert [DecidableEq κ] (key : κ) (value : α) : List (κ × α) → List (κ × α)
  | [] => [(key, value)]
  | (k, v) :: rest => if k = key then (key, value) :: rest else (k, v) :: upsert key value rest

/-- An update in place keeps the keys; otherwise the new key comes last. -/
theorem keys_upsert [DecidableEq κ] (key : κ) (value : α) (entries : List (κ × α)) :
    (upsert key value entries).map Prod.fst =
      if key ∈ entries.map Prod.fst then entries.map Prod.fst
      else entries.map Prod.fst ++ [key] := by
  induction entries with
  | nil => simp [upsert]
  | cons entry rest ih =>
    obtain ⟨k, v⟩ := entry
    by_cases hk : k = key
    · simp [upsert, hk]
    · have hk' : ¬ key = k := fun h => hk h.symm
      by_cases hmem : key ∈ rest.map Prod.fst
      · simp only [List.map_cons, List.mem_cons, hk', false_or, hmem, if_true] at ih ⊢
        simp [upsert, hk, ih]
      · simp only [List.map_cons, List.mem_cons, hk', false_or, hmem, if_false] at ih ⊢
        simp [upsert, hk, ih]

theorem nodup_upsert [DecidableEq κ] {key : κ} {value : α} {entries : List (κ × α)}
    (h : (entries.map Prod.fst).Nodup) : ((upsert key value entries).map Prod.fst).Nodup := by
  rw [keys_upsert]
  split
  · exact h
  · next hmem =>
    rw [List.nodup_append]
    refine ⟨h, by simp, ?_⟩
    intro a ha b hb hab
    rw [List.mem_singleton] at hb
    exact hmem (hb ▸ hab ▸ ha)

/-- The value of the first pair with a given key. -/
def find? [DecidableEq κ] (key : κ) : List (κ × α) → Option α
  | [] => none
  | (k, v) :: rest => if k = key then some v else find? key rest

def empty : Table κ α :=
  ⟨[], List.nodup_nil⟩

instance : Inhabited (Table κ α) :=
  ⟨empty⟩

def get? [DecidableEq κ] (t : Table κ α) (key : κ) : Option α :=
  find? key t.entries

def contains [DecidableEq κ] (t : Table κ α) (key : κ) : Bool :=
  (t.get? key).isSome

/-- Stores a value at a key, in place of any earlier one. -/
def insert [DecidableEq κ] (t : Table κ α) (key : κ) (value : α) : Table κ α :=
  ⟨upsert key value t.entries, nodup_upsert t.nodup⟩

def erase [DecidableEq κ] (t : Table κ α) (key : κ) : Table κ α :=
  ⟨t.entries.filter (fun e => e.1 ≠ key), t.nodup.sublist (List.filter_sublist.map _)⟩

def size (t : Table κ α) : Nat :=
  t.entries.length

/-- The keys in the order of their first arrival. -/
def keys (t : Table κ α) : List κ :=
  t.entries.map Prod.fst

/-- Inserts pairs from left to right, so that the last pair of a key counts. -/
def insertAll [DecidableEq κ] (t : Table κ α) (pairs : List (κ × α)) : Table κ α :=
  pairs.foldl (fun acc pair => acc.insert pair.1 pair.2) t

/-- The table of a list of pairs. -/
def ofList [DecidableEq κ] (pairs : List (κ × α)) : Table κ α :=
  empty.insertAll pairs

/-- An order in which the entries of tables are met. The tables themselves prescribe none. -/
structure Enumeration (κ α : Type) where
  arrange : List (κ × α) → List (κ × α)
  perm : ∀ entries, (arrange entries).Perm entries

namespace Enumeration

/-- Keys are met as they arrived. -/
def forward : Enumeration κ α :=
  ⟨id, fun _ => .refl _⟩

/-- Keys are met the other way round. -/
def backward : Enumeration κ α :=
  ⟨List.reverse, List.reverse_perm⟩

end Enumeration

/-- The entries of a table in the order in which they are met. -/
def entriesIn (order : Enumeration κ α) (t : Table κ α) : List (κ × α) :=
  order.arrange t.entries

-- ════════════════════════════════════════════════════════════════════════
-- Look-up after an update
-- ════════════════════════════════════════════════════════════════════════

theorem find?_upsert_self [DecidableEq κ] (key : κ) (value : α) (entries : List (κ × α)) :
    find? key (upsert key value entries) = some value := by
  induction entries with
  | nil => simp [upsert, find?]
  | cons entry rest ih =>
    obtain ⟨k, v⟩ := entry
    by_cases hk : k = key <;> simp [upsert, find?, hk, ih]

theorem find?_upsert_of_ne [DecidableEq κ] {key other : κ} (hne : other ≠ key) (value : α)
    (entries : List (κ × α)) : find? other (upsert key value entries) = find? other entries := by
  induction entries with
  | nil => simp [upsert, find?, hne.symm]
  | cons entry rest ih =>
    obtain ⟨k, v⟩ := entry
    by_cases hk : k = key
    · subst hk
      simp [upsert, find?, hne.symm]
    · by_cases ho : k = other
      · simp [upsert, find?, ho, hne]
      · simp [upsert, find?, hk, ho, ih]

theorem find?_filter_self [DecidableEq κ] (key : κ) (entries : List (κ × α)) :
    find? key (entries.filter (fun e => e.1 ≠ key)) = none := by
  induction entries with
  | nil => rfl
  | cons entry rest ih =>
    obtain ⟨k, v⟩ := entry
    by_cases hk : k = key
    · simpa [hk] using ih
    · simpa [hk, find?] using ih

theorem find?_filter_of_ne [DecidableEq κ] {key other : κ} (hne : other ≠ key)
    (entries : List (κ × α)) :
    find? other (entries.filter (fun e => e.1 ≠ key)) = find? other entries := by
  induction entries with
  | nil => rfl
  | cons entry rest ih =>
    obtain ⟨k, v⟩ := entry
    by_cases hk : k = key
    · subst hk
      simpa [find?, hne.symm] using ih
    · by_cases ho : k = other
      · simp [find?, ho, hne]
      · simpa [hk, find?, ho] using ih

@[simp]
theorem get?_empty [DecidableEq κ] (key : κ) : (empty : Table κ α).get? key = none :=
  rfl

@[simp]
theorem get?_insert_self [DecidableEq κ] (t : Table κ α) (key : κ) (value : α) :
    (t.insert key value).get? key = some value :=
  find?_upsert_self key value t.entries

theorem get?_insert_of_ne [DecidableEq κ] (t : Table κ α) {key other : κ} (hne : other ≠ key)
    (value : α) : (t.insert key value).get? other = t.get? other :=
  find?_upsert_of_ne hne value t.entries

@[simp]
theorem get?_erase_self [DecidableEq κ] (t : Table κ α) (key : κ) :
    (t.erase key).get? key = none :=
  find?_filter_self key t.entries

theorem get?_erase_of_ne [DecidableEq κ] (t : Table κ α) {key other : κ} (hne : other ≠ key) :
    (t.erase key).get? other = t.get? other :=
  find?_filter_of_ne hne t.entries

-- ════════════════════════════════════════════════════════════════════════
-- Updates after updates
-- ════════════════════════════════════════════════════════════════════════

theorem upsert_upsert [DecidableEq κ] (key : κ) (first second : α) (entries : List (κ × α)) :
    upsert key second (upsert key first entries) = upsert key second entries := by
  induction entries with
  | nil => simp [upsert]
  | cons entry rest ih =>
    obtain ⟨k, v⟩ := entry
    by_cases hk : k = key <;> simp [upsert, hk, ih]

theorem upsert_eq_self [DecidableEq κ] {key : κ} {value : α} {entries : List (κ × α)}
    (h : find? key entries = some value) : upsert key value entries = entries := by
  induction entries with
  | nil => exact nomatch h
  | cons entry rest ih =>
    obtain ⟨k, v⟩ := entry
    by_cases hk : k = key
    · simp_all [upsert, find?]
    · simp only [find?, hk, if_false] at h
      simp [upsert, hk, ih h]

/-- Of two insertions at one key only the second counts. -/
@[simp]
theorem insert_insert [DecidableEq κ] (t : Table κ α) (key : κ) (first second : α) :
    (t.insert key first).insert key second = t.insert key second := by
  simp [insert, upsert_upsert]

/-- Inserting the value that a key has changes nothing. -/
theorem insert_eq_self [DecidableEq κ] {t : Table κ α} {key : κ} {value : α}
    (h : t.get? key = some value) : t.insert key value = t := by
  obtain ⟨entries, hnodup⟩ := t
  simp only [insert, mk.injEq]
  exact upsert_eq_self h

end Table

end SelectionGrowth
