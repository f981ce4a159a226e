/-!
# Cutting lists

Written forms are taken apart by cutting at separators and by dropping what
surrounds a part.

## Main definitions

- `Text.splitOn` — all parts between separators
- `Text.cutAt`, `Text.cutAtLast?` — the two sides of one separator
- `Text.trimEnds` — a list without what surrounds it

## Main statements

- `Text.cutAt_eq_append` — a cut loses only the separator
- `Text.cutAt_append` — the first separator is where a list is cut
- `Text.exists_trimEnds_append`, `Text.trimEnds_append` — only what surrounds a part is dropped
-/

namespace SelectionGrowth.Text

variable {α : Type}

/-- The parts of a list between separators. There is one more part than separators. -/
def splitOn (separator : α → Bool) : List α → List (List α)
  | [] => [[]]
  | a :: rest =>
    if separator a then [] :: splitOn separator rest
    else
      match splitOn separator rest with
      | [] => [[a]]
      | first :: more => (a :: first) :: more

/-- Cuts at the first separator; without one there is no second part. -/
def cutAt (separator : α → Bool) : List α → List α × Option (List α)
  | [] => ([], none)
  | a :: rest =>
    if separator a then ([], some rest)
    else
      let cut := cutAt separator rest
      (a :: cut.1, cut.2)

/-- Cuts at the last separator. -/
def cutAtLast? (separator : α → Bool) (list : List α) : Option (List α × List α) :=
  match cutAt separator list.reverse with
  | (_, none) => none
  | (after, some before) => some (before.reverse, after.reverse)

/-- Drops what satisfies a condition at both ends. -/
def trimEnds (condition : α → Bool) (list : List α) : List α :=
  ((list.dropWhile condition).reverse.dropWhile condition).reverse

/-- A cut loses only the separator, and the first part holds none. -/
theorem cutAt_eq_append {separator : α → Bool} {list before after : List α}
    (h : cutAt separator list = (before, some after)) :
    ∃ a, separator a = true ∧ list = before ++ a :: after ∧ ∀ b ∈ before, separator b = false := by
  induction list generalizing before with
  | nil => simp [cutAt] at h
  | cons a rest ih =>
    by_cases ha : separator a = true
    · simp only [cutAt, ha, if_true, Prod.mk.injEq, Option.some.injEq] at h
      obtain ⟨rfl, rfl⟩ := h
      exact ⟨a, ha, rfl, by simp⟩
    · simp only [cutAt, ha, if_false, Prod.mk.injEq, Bool.false_eq_true] at h
      obtain ⟨rfl, hrest⟩ := h
      obtain ⟨s, hs, heq, hnone⟩ := ih (Prod.ext rfl hrest)
      refine ⟨s, hs, by simp [← heq], ?_⟩
      intro b hb
      rcases List.mem_cons.1 hb with rfl | hmem
      · simpa using ha
      · exact hnone b hmem

/-- A list is cut where the first separator stands. -/
theorem cutAt_append {separator : α → Bool} {a : α} {before : List α}
    (hbefore : ∀ b ∈ before, separator b = false) (ha : separator a = true) (after : List α) :
    cutAt separator (before ++ a :: after) = (before, some after) := by
  induction before with
  | nil => simp [cutAt, ha]
  | cons b rest ih =>
    have hb : separator b = false := hbefore b List.mem_cons_self
    have hrest := ih fun c hc => hbefore c (List.mem_cons_of_mem b hc)
    simp [cutAt, hb, hrest]

/-- What is dropped at the ends satisfies the condition. -/
theorem exists_trimEnds_append (condition : α → Bool) (list : List α) :
    ∃ before after, before ++ trimEnds condition list ++ after = list ∧
      (∀ a ∈ before, condition a = true) ∧ ∀ a ∈ after, condition a = true := by
  refine ⟨list.takeWhile condition,
    ((list.dropWhile condition).reverse.takeWhile condition).reverse, ?_,
    List.all_eq_true.1 List.all_takeWhile, ?_⟩
  · rw [trimEnds, List.append_assoc, ← List.reverse_append, List.takeWhile_append_dropWhile,
      List.reverse_reverse, List.takeWhile_append_dropWhile]
  · intro a ha
    exact List.all_eq_true.1 List.all_takeWhile a (List.mem_reverse.1 ha)

theorem dropWhile_append_of_neg {condition : α → Bool} {before rest : List α}
    (hbefore : ∀ a ∈ before, condition a = true)
    (hrest : ∀ a, rest.head? = some a → condition a = false) :
    (before ++ rest).dropWhile condition = rest := by
  rw [List.dropWhile_append_of_pos hbefore]
  cases rest with
  | nil => rfl
  | cons a rest => rw [List.dropWhile_cons_of_neg (by simp [hrest a rfl])]

/-- Only what surrounds a part is dropped. -/
theorem trimEnds_append {condition : α → Bool} {before middle after : List α}
    (hbefore : ∀ a ∈ before, condition a = true) (hafter : ∀ a ∈ after, condition a = true)
    (hne : middle ≠ []) (hmiddle : ∀ a ∈ middle, condition a = false) :
    trimEnds condition (before ++ middle ++ after) = middle := by
  have hstart : (before ++ middle ++ after).dropWhile condition = middle ++ after := by
    obtain ⟨first, rest, rfl⟩ := List.exists_cons_of_ne_nil hne
    rw [List.append_assoc]
    refine dropWhile_append_of_neg hbefore fun a ha => ?_
    obtain rfl : first = a := Option.some.inj ha
    exact hmiddle first List.mem_cons_self
  have hstop : (after.reverse ++ middle.reverse).dropWhile condition = middle.reverse := by
    refine dropWhile_append_of_neg (fun a ha => hafter a (List.mem_reverse.1 ha)) fun a ha => ?_
    exact hmiddle a (List.mem_reverse.1 (List.mem_of_mem_head? ha))
  rw [trimEnds, hstart, List.reverse_append, hstop, List.reverse_reverse]

end SelectionGrowth.Text
