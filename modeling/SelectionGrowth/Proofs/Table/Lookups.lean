import SelectionGrowth.Table

/-!
# Look-ups in composed tables

A table made from a list of pairs finds the last pair of each key. A table put
above another inserts its entries one after another, each value joined with what
its key held before: a look-up in the result joins the look-ups in both tables,
and the keys are those of the lower table followed by the new ones. As a table is
determined by its keys and its look-ups, the laws of a join are laws of tables.

## Main definitions

- `Table.insertWith` — a value joined with what its key holds
- `Table.above` — a table above another

## Main statements

- `Table.get?_ofList` — the last pair of a key counts
- `Table.get?_above`, `Table.keys_above` — look-ups and keys of a table above another
- `Table.ext_of_keys` — tables with the same keys and look-ups are equal
- `Table.above_assoc`, `Table.above_self` — the laws that a join passes on
-/

namespace SelectionGrowth.Table

variable {κ α : Type} [DecidableEq κ]

/-- Stores a value at a key, joined with the value that the key has. -/
def insertWith (join : α → α → α) (t : Table κ α) (pair : κ × α) : Table κ α :=
  t.insert pair.1 ((t.get? pair.1).elim pair.2 (join pair.2))

/-- A table above another: where both have a value, the two are joined. -/
def above (join : α → α → α) (upper lower : Table κ α) : Table κ α :=
  upper.entries.foldl (insertWith join) lower

-- ════════════════════════════════════════════════════════════════════════
-- Look-ups and entries
-- ════════════════════════════════════════════════════════════════════════

theorem find?_eq_none_iff {key : κ} {entries : List (κ × α)} :
    find? key entries = none ↔ key ∉ entries.map Prod.fst := by
  induction entries with
  | nil => simp [find?]
  | cons entry rest ih =>
    obtain ⟨k, v⟩ := entry
    by_cases hk : k = key
    · simp [find?, hk]
    · have hk' : ¬ key = k := fun h => hk h.symm
      simp only [find?, hk, if_false, List.map_cons, List.mem_cons, hk', false_or]
      exact ih

theorem mem_of_find? {key : κ} {value : α} {entries : List (κ × α)}
    (h : find? key entries = some value) : (key, value) ∈ entries := by
  induction entries with
  | nil => exact nomatch h
  | cons entry rest ih =>
    obtain ⟨k, v⟩ := entry
    by_cases hk : k = key
    · simp_all [find?]
    · simp only [find?, hk, if_false] at h
      exact List.mem_cons_of_mem _ (ih h)

theorem find?_append (key : κ) (first second : List (κ × α)) :
    find? key (first ++ second) = (find? key first).or (find? key second) := by
  induction first with
  | nil => simp [find?]
  | cons entry rest ih =>
    obtain ⟨k, v⟩ := entry
    by_cases hk : k = key <;> simp [find?, hk, ih]

/-- Of several pairs of a key the last one counts. -/
theorem get?_insertAll (t : Table κ α) (pairs : List (κ × α)) (key : κ) :
    (t.insertAll pairs).get? key = (find? key pairs.reverse).or (t.get? key) := by
  induction pairs generalizing t with
  | nil => simp [insertAll, find?]
  | cons pair rest ih =>
    obtain ⟨k, v⟩ := pair
    have hstep : t.insertAll ((k, v) :: rest) = (t.insert k v).insertAll rest := rfl
    rw [hstep, ih, List.reverse_cons, find?_append, Option.or_assoc]
    congr 1
    by_cases hk : k = key
    · simp [hk, find?]
    · simp [find?, hk, t.get?_insert_of_ne (fun h => hk h.symm)]

theorem get?_ofList (pairs : List (κ × α)) (key : κ) :
    (ofList pairs).get? key = find? key pairs.reverse := by
  rw [ofList, get?_insertAll, get?_empty, Option.or_none]

/-- Where every key stands once, a look-up finds each entry. -/
theorem find?_of_mem {entries : List (κ × α)} (hnodup : (entries.map Prod.fst).Nodup) {key : κ}
    {value : α} (h : (key, value) ∈ entries) : find? key entries = some value := by
  induction entries with
  | nil => exact absurd h List.not_mem_nil
  | cons entry rest ih =>
    obtain ⟨k, v⟩ := entry
    obtain ⟨hfresh, hrest⟩ := List.nodup_cons.1 hnodup
    rcases List.mem_cons.1 h with heq | hmem
    · cases heq
      simp [find?]
    · have hkey : key ∈ rest.map Prod.fst := List.mem_map_of_mem hmem
      have hne : k ≠ key := fun hk => hfresh (hk ▸ hkey)
      simpa [find?, hne] using ih hrest hmem

/-- The entries are the keys with their look-ups. -/
theorem map_entries (t : Table κ α) :
    t.entries.map (fun entry => (entry.1, some entry.2)) =
      t.keys.map fun key => (key, t.get? key) := by
  rw [keys, List.map_map]
  refine List.map_congr_left fun entry hentry => ?_
  exact congrArg (Prod.mk entry.1) (find?_of_mem t.nodup hentry).symm

/-- A table is determined by its keys in their order and by its look-ups. -/
theorem ext_of_keys {t u : Table κ α} (hkeys : t.keys = u.keys)
    (hget : ∀ key, t.get? key = u.get? key) : t = u := by
  have hentries : t.entries = u.entries := by
    have hmap : t.entries.map (fun entry => (entry.1, some entry.2)) =
        u.entries.map fun entry => (entry.1, some entry.2) := by
      rw [map_entries, map_entries, hkeys]
      exact List.map_congr_left fun key _ => congrArg (Prod.mk key) (hget key)
    refine (List.map_inj_right ?_).1 hmap
    rintro ⟨k, v⟩ ⟨k', v'⟩ heq
    simpa using heq
  obtain ⟨entries, hnodup⟩ := t
  cases hentries
  rfl

-- ════════════════════════════════════════════════════════════════════════
-- One entry
-- ════════════════════════════════════════════════════════════════════════

variable {join : α → α → α}

theorem get?_insertWith_self (t : Table κ α) (key : κ) (value : α) :
    (t.insertWith join (key, value)).get? key = Option.merge join (some value) (t.get? key) := by
  rw [insertWith, get?_insert_self]
  cases t.get? key <;> rfl

theorem get?_insertWith_of_ne (t : Table κ α) {key other : κ} (hne : other ≠ key) (value : α) :
    (t.insertWith join (key, value)).get? other = t.get? other :=
  t.get?_insert_of_ne hne _

theorem keys_insertWith (t : Table κ α) (pair : κ × α) :
    (t.insertWith join pair).keys =
      if pair.1 ∈ t.keys then t.keys else t.keys ++ [pair.1] :=
  keys_upsert _ _ _

-- ════════════════════════════════════════════════════════════════════════
-- All entries
-- ════════════════════════════════════════════════════════════════════════

theorem get?_foldl_insertWith {pairs : List (κ × α)} (hnodup : (pairs.map Prod.fst).Nodup)
    (t : Table κ α) (key : κ) :
    (pairs.foldl (insertWith join) t).get? key =
      Option.merge join (find? key pairs) (t.get? key) := by
  induction pairs generalizing t with
  | nil => simp [find?]
  | cons pair rest ih =>
    obtain ⟨k, v⟩ := pair
    obtain ⟨hfresh, hrest⟩ := List.nodup_cons.1 hnodup
    rw [List.foldl_cons, ih hrest]
    by_cases hk : k = key
    · subst hk
      -- the key does not come again, so its one entry is what counts
      rw [find?_eq_none_iff.2 hfresh, get?_insertWith_self]
      simp [find?]
    · rw [get?_insertWith_of_ne t (fun h => hk h.symm)]
      simp [find?, hk]

theorem keys_foldl_insertWith {pairs : List (κ × α)} (hnodup : (pairs.map Prod.fst).Nodup)
    (t : Table κ α) :
    (pairs.foldl (insertWith join) t).keys =
      t.keys ++ (pairs.map Prod.fst).filter fun key => key ∉ t.keys := by
  induction pairs generalizing t with
  | nil => simp
  | cons pair rest ih =>
    obtain ⟨k, v⟩ := pair
    obtain ⟨hfresh, hrest⟩ := List.nodup_cons.1 hnodup
    rw [List.foldl_cons, ih hrest, keys_insertWith]
    by_cases hk : k ∈ t.keys
    · simp [hk]
    · have hkept : (rest.map Prod.fst).filter (fun key => key ∉ t.keys ++ [k]) =
          (rest.map Prod.fst).filter fun key => key ∉ t.keys := by
        refine List.filter_congr fun key hkey => ?_
        have hne : key ≠ k := fun h => hfresh (h ▸ hkey)
        simp [hne]
      simp only [hk, if_false, hkept]
      simp [hk]

/-- A look-up in a table above another joins the two look-ups. -/
theorem get?_above (upper lower : Table κ α) (key : κ) :
    (upper.above join lower).get? key = Option.merge join (upper.get? key) (lower.get? key) :=
  get?_foldl_insertWith upper.nodup lower key

/-- The keys of the lower table come first, then the new ones. -/
theorem keys_above (upper lower : Table κ α) :
    (upper.above join lower).keys = lower.keys ++ upper.keys.filter fun key => key ∉ lower.keys :=
  keys_foldl_insertWith upper.nodup lower

theorem above_assoc (hassoc : ∀ x y z, join (join x y) z = join x (join y z))
    (top middle bottom : Table κ α) :
    (top.above join middle).above join bottom = top.above join (middle.above join bottom) := by
  refine ext_of_keys ?_ fun key => ?_
  · simp only [keys_above, List.filter_append, List.filter_filter, List.append_assoc]
    congr 2
    refine List.filter_congr fun key _ => ?_
    by_cases hbottom : key ∈ bottom.keys <;> simp [hbottom]
  · simp only [get?_above]
    cases top.get? key <;> cases middle.get? key <;> cases bottom.get? key <;>
      simp [Option.merge, hassoc]

theorem above_self (hidem : ∀ x, join x x = x) (t : Table κ α) : t.above join t = t := by
  refine ext_of_keys ?_ fun key => ?_
  · rw [keys_above, List.filter_eq_nil_iff.2 (by simp), List.append_nil]
  · rw [get?_above]
    cases t.get? key <;> simp [Option.merge, hidem]

/-- Inserting all entries of a table puts it above, where its own values count. -/
theorem insertAll_entries (upper lower : Table κ α) :
    lower.insertAll upper.entries = upper.above (fun new _ => new) lower := by
  have hstep : (fun (t : Table κ α) (pair : κ × α) => t.insert pair.1 pair.2) =
      insertWith fun new _ => new := by
    funext t pair
    rw [insertWith]
    cases t.get? pair.1 <;> rfl
  rw [insertAll, hstep, above]

end SelectionGrowth.Table
