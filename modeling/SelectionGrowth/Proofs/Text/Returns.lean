import SelectionGrowth.Proofs.Text.Boundary

/-!
# Carriage returns before a line feed

Columns address a line only up to the carriage returns that stand directly
before its line feed. An offset among these returns is given a position like any
other, but the position leads back to the first of them.

## Main definitions

- `Text.BeforeFeed` — only carriage returns stand before the next line feed
- `Text.settle` — the offset that a position of an offset leads back to
- `Text.InReturns` — the offsets that are moved by this

## Main statements

- `Text.settle_le_settle` — offsets keep their order
- `Text.settle_eq_iff` — only offsets among the returns are moved
-/

namespace SelectionGrowth.Text

/-- Only carriage returns stand before the next line feed. -/
def BeforeFeed (cs : List Char) : Prop :=
  '\n' ∈ cs ∧ ∀ c ∈ line cs, c = '\r'

instance (cs : List Char) : Decidable (BeforeFeed cs) :=
  -- only the characters of the line are looked at, not all characters there are
  have : Decidable (∀ c ∈ line cs, c = '\r') := List.decidableBAll (· = '\r') (line cs)
  inferInstanceAs (Decidable (_ ∧ _))

/--
The offset that remains of an offset once it has been written as a position: an
offset among the carriage returns before a line feed moves to the first of them.
-/
def settle (cs : List Char) (offset : Nat) : Nat :=
  if BeforeFeed (dropBytes offset cs) then bytes (trimReturns (takeBytes offset cs)) else offset

/-- An offset directly after one of the carriage returns that stand before a line feed. -/
def InReturns (cs : List Char) (offset : Nat) : Prop :=
  ∃ before after, before ++ '\r' :: after = cs ∧ bytes (before ++ ['\r']) = offset ∧
    BeforeFeed after

-- ════════════════════════════════════════════════════════════════════════
-- Dropping carriage returns
-- ════════════════════════════════════════════════════════════════════════

theorem trimReturns_cons (c : Char) (cs : List Char) :
    trimReturns (c :: cs) =
      if trimReturns cs = [] ∧ c = '\r' then [] else c :: trimReturns cs := by
  rw [trimReturns]
  split
  · next hnil => by_cases hc : c = '\r' <;> simp [hnil, hc]
  · next hne => rw [if_neg fun h => hne h.1]

theorem trimReturns_eq_nil_iff {cs : List Char} : trimReturns cs = [] ↔ ∀ c ∈ cs, c = '\r' := by
  induction cs with
  | nil => exact ⟨fun _ c hc => absurd hc List.not_mem_nil, fun _ => rfl⟩
  | cons c cs ih =>
    rw [trimReturns_cons, List.forall_mem_cons, ← ih]
    by_cases h : trimReturns cs = [] ∧ c = '\r'
    · rw [if_pos h]
      exact ⟨fun _ => ⟨h.2, h.1⟩, fun _ => rfl⟩
    · rw [if_neg h]
      exact ⟨fun hnil => absurd hnil (List.cons_ne_nil _ _), fun h' => absurd ⟨h'.2, h'.1⟩ h⟩

/-- Only the second part loses returns, unless it is made of returns. -/
theorem trimReturns_append (as bs : List Char) :
    trimReturns (as ++ bs) =
      if trimReturns bs = [] then trimReturns as else as ++ trimReturns bs := by
  induction as with
  | nil =>
    by_cases h : trimReturns bs = []
    · rw [if_pos h]
      exact h
    · rw [if_neg h]
      rfl
  | cons a as ih =>
    rw [List.cons_append, trimReturns_cons, ih]
    by_cases h : trimReturns bs = []
    · rw [if_pos h, if_pos h, trimReturns_cons]
    · rw [if_neg h, if_neg h, if_neg]
      · rfl
      · exact fun hnil => h (List.append_eq_nil_iff.1 hnil.1).2

theorem trimReturns_append_of_forall {as bs : List Char} (h : ∀ c ∈ bs, c = '\r') :
    trimReturns (as ++ bs) = trimReturns as := by
  rw [trimReturns_append, if_pos (trimReturns_eq_nil_iff.2 h)]

theorem trimReturns_concat_of_ne {c : Char} (hc : c ≠ '\r') (cs : List Char) :
    trimReturns (cs ++ [c]) = cs ++ [c] := by
  have hsingle : trimReturns [c] = [c] := by
    rw [trimReturns_cons, if_neg fun h => hc h.2]
    rfl
  rw [trimReturns_append, hsingle, if_neg (List.cons_ne_nil _ _)]

theorem trimReturns_trimReturns (cs : List Char) :
    trimReturns (trimReturns cs) = trimReturns cs := by
  induction cs with
  | nil => rfl
  | cons c cs ih =>
    rw [trimReturns_cons]
    by_cases h : trimReturns cs = [] ∧ c = '\r'
    · rw [if_pos h]
      rfl
    · rw [if_neg h, trimReturns_cons, ih, if_neg h]

/-- Of the text left by dropping returns, no end part is made of returns. -/
theorem eq_nil_of_trimReturns_eq_append {cs as bs : List Char} (h : trimReturns cs = as ++ bs)
    (hbs : ∀ c ∈ bs, c = '\r') : bs = [] := by
  have htrim : trimReturns as = as ++ bs := by
    rw [← trimReturns_append_of_forall hbs, ← h, trimReturns_trimReturns]
  have hlength := (trimReturns_isPrefix as).length_le
  rw [htrim, List.length_append] at hlength
  exact List.eq_nil_of_length_eq_zero (by omega)

theorem bytes_trimReturns_le (cs : List Char) : bytes (trimReturns cs) ≤ bytes cs :=
  bytes_le_of_isPrefix (trimReturns_isPrefix cs)

-- ════════════════════════════════════════════════════════════════════════
-- Settled offsets
-- ════════════════════════════════════════════════════════════════════════

theorem settle_append (before after : List Char) :
    settle (before ++ after) (bytes before) =
      if BeforeFeed after then bytes (trimReturns before) else bytes before := by
  rw [settle, dropBytes_append, takeBytes_append]

theorem settle_le {cs : List Char} {n : Nat} (h : IsBoundary cs n) : settle cs n ≤ n := by
  obtain ⟨before, after, rfl, rfl⟩ := h
  rw [settle_append]
  split
  · exact bytes_trimReturns_le before
  · exact Nat.le_refl _

theorem eq_nil_of_bytes_eq_zero {cs : List Char} (h : bytes cs = 0) : cs = [] := by
  cases cs with
  | nil => rfl
  | cons c cs =>
    have hpos := c.utf8Size_pos
    rw [bytes] at h
    omega

theorem exists_parts_of_le {cs : List Char} {m n : Nat} (hm : IsBoundary cs m)
    (hn : IsBoundary cs n) (hle : m ≤ n) :
    ∃ before middle after, cs = before ++ (middle ++ after) ∧ bytes before = m ∧
      bytes (before ++ middle) = n := by
  obtain ⟨first, rest, hcs, rfl⟩ := hm
  obtain ⟨longer, after, hcs', rfl⟩ := hn
  rcases List.prefix_or_prefix_of_prefix ⟨rest, hcs⟩ ⟨after, hcs'⟩ with
    ⟨middle, rfl⟩ | ⟨middle, rfl⟩
  · exact ⟨first, middle, after, by rw [← hcs', List.append_assoc], rfl, rfl⟩
  · -- the other way round only with nothing in between
    rw [bytes_append] at hle
    have hnil : middle = [] := eq_nil_of_bytes_eq_zero (by omega)
    subst hnil
    exact ⟨longer, [], after, by simp [hcs'], by simp, by simp⟩

/-- A run of returns in front keeps what follows directly before a line feed. -/
theorem BeforeFeed.append_left {middle after : List Char} (h : BeforeFeed after)
    (hmiddle : ∀ c ∈ middle, c = '\r') : BeforeFeed (middle ++ after) := by
  refine ⟨List.mem_append_right _ h.1, ?_⟩
  have hline : line (middle ++ after) = middle ++ line after := by
    refine List.takeWhile_append_of_pos fun c hc => ?_
    rw [hmiddle c hc]
    rfl
  intro c hc
  rw [hline] at hc
  exact (List.mem_append.1 hc).elim (hmiddle c) (h.2 c)

theorem settle_le_settle {cs : List Char} {m n : Nat} (hm : IsBoundary cs m)
    (hn : IsBoundary cs n) (hle : m ≤ n) : settle cs m ≤ settle cs n := by
  have hsettle := settle_le hm
  obtain ⟨before, middle, after, rfl, rfl, rfl⟩ := exists_parts_of_le hm hn hle
  have hstop : settle (before ++ (middle ++ after)) (bytes (before ++ middle)) =
      if BeforeFeed after then bytes (trimReturns (before ++ middle))
      else bytes (before ++ middle) := by
    rw [← List.append_assoc, settle_append]
  rw [hstop]
  by_cases hafter : BeforeFeed after
  · rw [if_pos hafter, trimReturns_append]
    split
    · next hmiddle =>
      -- both offsets lie in one run of returns
      have hboth := hafter.append_left (trimReturns_eq_nil_iff.1 hmiddle)
      have hstart : settle (before ++ (middle ++ after)) (bytes before) =
          bytes (trimReturns before) := by
        rw [settle_append, if_pos hboth]
      exact Nat.le_of_eq hstart
    · rw [bytes_append]
      omega
  · rw [if_neg hafter]
    omega

/-- A text that keeps its end is not moved, and one that does not ends in a return. -/
theorem trimReturns_eq_self_or (cs : List Char) :
    trimReturns cs = cs ∨ ∃ init, cs = init ++ ['\r'] := by
  rcases List.eq_nil_or_concat cs with rfl | ⟨init, last, rfl⟩
  · exact Or.inl rfl
  · rw [List.concat_eq_append]
    by_cases hlast : last = '\r'
    · exact Or.inr ⟨init, by rw [hlast]⟩
    · exact Or.inl (trimReturns_concat_of_ne hlast init)

/-- Exactly the offsets among the returns before a line feed are moved. -/
theorem settle_eq_iff {cs : List Char} {n : Nat} (h : IsBoundary cs n) :
    settle cs n = n ↔ ¬ InReturns cs n := by
  constructor
  · rintro hsettle ⟨before, after, rfl, rfl, hafter⟩
    have hcut : before ++ '\r' :: after = before ++ ['\r'] ++ after := by
      rw [List.append_assoc]
      rfl
    rw [hcut, settle_append, if_pos hafter, trimReturns_append_of_forall (by simp)] at hsettle
    have hle := bytes_trimReturns_le before
    have hreturn : bytes ['\r'] = 1 := rfl
    rw [hsettle, bytes_append, hreturn] at hle
    omega
  · intro hnot
    obtain ⟨before, after, rfl, rfl⟩ := h
    rw [settle_append]
    split
    · next hafter =>
      rcases trimReturns_eq_self_or before with hself | ⟨init, rfl⟩
      · rw [hself]
      · exact absurd ⟨init, after, by simp, rfl, hafter⟩ hnot
    · rfl

end SelectionGrowth.Text
