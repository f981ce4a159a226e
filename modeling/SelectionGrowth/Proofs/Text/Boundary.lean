import SelectionGrowth.Text.Change

/-!
# Character boundaries

A text can be cut at a byte offset exactly when the offset ends a whole
character. Every offset that a position or a change leads to is such a boundary,
so texts are never cut inside a character.

## Main statements

- `Text.isBoundary_iff` — a boundary is where rounding down changes nothing
- `Document.isBoundary_of_offsetOf?` — positions lead to boundaries
- `Change.isBoundary_locate` — and so do the ends of changes
-/

namespace SelectionGrowth

namespace Text

theorem takeBytes_zero (cs : List Char) : takeBytes 0 cs = [] := by
  cases cs with
  | nil => rfl
  | cons c cs =>
    have hpos := c.utf8Size_pos
    rw [takeBytes, if_neg (by omega)]

theorem takeBytes_append (before after : List Char) :
    takeBytes (bytes before) (before ++ after) = before := by
  induction before with
  | nil => exact takeBytes_zero after
  | cons c cs ih =>
    rw [List.cons_append, takeBytes, bytes, if_pos (Nat.le_add_right _ _), Nat.add_sub_cancel_left,
      ih]

theorem takeBytes_of_le {cs : List Char} {n : Nat} (h : bytes cs ≤ n) : takeBytes n cs = cs := by
  induction cs generalizing n with
  | nil => rfl
  | cons c cs ih =>
    rw [bytes] at h
    rw [takeBytes, if_pos (by omega), ih (by omega)]

theorem dropBytes_append (before after : List Char) :
    dropBytes (bytes before) (before ++ after) = after := by
  have hparts := takeBytes_append_dropBytes (bytes before) (before ++ after)
  rw [takeBytes_append] at hparts
  exact List.append_cancel_left hparts

/-- Where a text can be cut, rounding down changes nothing, and conversely. -/
theorem isBoundary_iff {cs : List Char} {n : Nat} : IsBoundary cs n ↔ floorBoundary cs n = n := by
  constructor
  · rintro ⟨before, after, rfl, rfl⟩
    rw [floorBoundary, takeBytes_append]
  · intro h
    exact ⟨takeBytes n cs, dropBytes n cs, takeBytes_append_dropBytes n cs, h⟩

instance (cs : List Char) (n : Nat) : Decidable (IsBoundary cs n) :=
  decidable_of_iff (floorBoundary cs n = n) isBoundary_iff.symm

theorem isBoundary_floorBoundary (cs : List Char) (n : Nat) :
    IsBoundary cs (floorBoundary cs n) :=
  ⟨takeBytes n cs, dropBytes n cs, takeBytes_append_dropBytes n cs, rfl⟩

theorem isBoundary_bytes (cs : List Char) : IsBoundary cs (bytes cs) :=
  ⟨cs, [], List.append_nil cs, rfl⟩

theorem IsBoundary.le_bytes {cs : List Char} {n : Nat} (h : IsBoundary cs n) : n ≤ bytes cs := by
  obtain ⟨before, after, rfl, rfl⟩ := h
  rw [bytes_append]
  exact Nat.le_add_right _ _

theorem bytes_le_of_isPrefix {part cs : List Char} (h : part <+: cs) : bytes part ≤ bytes cs := by
  obtain ⟨rest, rfl⟩ := h
  rw [bytes_append]
  exact Nat.le_add_right _ _

theorem IsBoundary.of_isPrefix {part cs : List Char} {n : Nat} (h : IsBoundary part n)
    (hpart : part <+: cs) : IsBoundary cs n := by
  obtain ⟨before, after, rfl, rfl⟩ := h
  obtain ⟨rest, rfl⟩ := hpart
  exact ⟨before, after ++ rest, by rw [List.append_assoc], rfl⟩

theorem IsBoundary.append_left {cs : List Char} {n : Nat} (h : IsBoundary cs n)
    (first : List Char) : IsBoundary (first ++ cs) (bytes first + n) := by
  obtain ⟨before, after, rfl, rfl⟩ := h
  exact ⟨first ++ before, after, List.append_assoc _ _ _, bytes_append _ _⟩

-- ════════════════════════════════════════════════════════════════════════
-- Parts of a line
-- ════════════════════════════════════════════════════════════════════════

theorem line_isPrefix (rest : List Char) : line rest <+: rest :=
  List.takeWhile_prefix _

theorem trimReturns_isPrefix (cs : List Char) : trimReturns cs <+: cs := by
  induction cs with
  | nil => exact List.nil_prefix
  | cons c cs ih =>
    rw [trimReturns]
    split
    · split
      · exact List.nil_prefix
      · exact List.prefix_append [c] cs
    · exact List.prefix_cons_inj c |>.2 ih

theorem reach_isPrefix (rest : List Char) : reach rest <+: line rest := by
  unfold reach
  split
  · exact trimReturns_isPrefix _
  · exact List.prefix_rfl

end Text

namespace Document

/-- Every position leads to a character boundary of the text. -/
theorem isBoundary_of_offsetOf? {d : Document} {line column offset : Nat}
    (h : d.offsetOf? line column = some offset) : Text.IsBoundary d.chars offset := by
  unfold offsetOf? at h
  split at h
  · exact nomatch h
  · next before rest hsplit =>
    obtain ⟨byteColumn, -, rfl⟩ := Option.map_eq_some_iff.1 h
    rw [← Text.append_of_splitAtLine hsplit]
    have hreach := Text.isBoundary_floorBoundary (Text.reach rest) byteColumn
    have hrest : Text.reach rest <+: rest :=
      (Text.reach_isPrefix rest).trans (Text.line_isPrefix rest)
    exact (hreach.of_isPrefix hrest).append_left before

end Document

namespace Change

theorem endOf_fst (d : Document) : (endOf d).1 = d.length := by
  unfold endOf
  simp only
  split
  · rfl
  · split <;> rfl

/-- Both ends of a change fall on character boundaries of the text. -/
theorem isBoundary_locate (d : Document) (p : Position) :
    Text.IsBoundary d.chars (locate d p).1 := by
  unfold locate
  split
  · next offset lineStart hoffset _ => exact Document.isBoundary_of_offsetOf? hoffset
  · rw [endOf_fst]
    exact Text.isBoundary_bytes d.chars

end Change

end SelectionGrowth
