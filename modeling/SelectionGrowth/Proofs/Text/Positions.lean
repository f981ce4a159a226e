import SelectionGrowth.Proofs.Text.Columns
import SelectionGrowth.Proofs.Text.Order

/-!
# Positions of offsets

A position counts what stands before an offset: line feeds, and the UTF-16 units
since the last of them. Reading it back counts the same units in the addressed
part of the line, so an offset comes back unless it lies past that part, among
the carriage returns. A position that leads to an offset is moved to the position
of this offset, on the same line and not to the right.

## Main statements

- `Text.lastLine_append` — the part of a text since its last line feed
- `Text.bytes_takeUnits_units` — counting the units of a part in another part of the same line
- `Document.offsets_and_positions` — how far the two conversions are inverse
-/

namespace SelectionGrowth

namespace Text

theorem lastLine_append_of_notMem (before : List Char) {part : List Char} (h : '\n' ∉ part) :
    lastLine (before ++ part) = lastLine before ++ part := by
  have hpart : '\n' ∉ part.reverse := fun hmem => h (List.mem_reverse.1 hmem)
  have hline : lastLine (before ++ part) = (line (part.reverse ++ before.reverse)).reverse := by
    rw [lastLine, List.reverse_append, line]
  rw [hline, line_append hpart, List.reverse_append, List.reverse_reverse]
  rfl

theorem lastLine_of_wholeLines {lines : List Char} (h : WholeLines lines) :
    lastLine lines = [] := by
  rcases List.eq_nil_or_concat lines with rfl | ⟨init, last, rfl⟩
  · rfl
  · rw [List.concat_eq_append] at h ⊢
    simp [lastLine, h last List.getLast?_concat]

/-- The part of a text since its last line feed. -/
theorem lastLine_append {lines part : List Char} (hlines : WholeLines lines)
    (hpart : '\n' ∉ part) : lastLine (lines ++ part) = part := by
  rw [lastLine_append_of_notMem lines hpart, lastLine_of_wholeLines hlines, List.nil_append]

/-- Of two parts of one line, the units of the first reach to the end of the shorter one. -/
theorem bytes_takeUnits_units {part content rest after : List Char}
    (h : content ++ after = part ++ rest) :
    bytes (takeUnits (units part) content) = min (bytes part) (bytes content) := by
  rcases List.prefix_or_prefix_of_prefix ⟨rest, h.symm⟩ (List.prefix_append content after) with
    ⟨left, rfl⟩ | ⟨left, rfl⟩
  · rw [takeUnits_append (Nat.le_refl _), Nat.sub_self, takeUnits_zero, List.append_nil,
      bytes_append]
    omega
  · rw [takeUnits_of_le (by rw [units_append]; omega), bytes_append]
    omega

/-- An offset of a text is between two characters or inside one. -/
theorem isBoundary_or_inside {cs : List Char} {offset : Nat} (h : offset ≤ bytes cs) :
    IsBoundary cs offset ∨ ∃ before c after inside, cs = before ++ c :: after ∧
      offset = bytes before + inside ∧ 0 < inside ∧ inside < c.utf8Size := by
  induction cs generalizing offset with
  | nil => exact Or.inl ⟨[], [], rfl, (Nat.le_zero.1 h).symm⟩
  | cons c cs ih =>
    rw [bytes] at h
    by_cases hsize : c.utf8Size ≤ offset
    · have hoffset : bytes [c] + (offset - c.utf8Size) = offset := by
        simp only [bytes]
        omega
      have hrest : offset - c.utf8Size ≤ bytes cs := by omega
      rcases ih hrest with
        hboundary | ⟨before, first, after, inside, rfl, heq, hpos, hlt⟩
      · left
        have hcons := hboundary.append_left [c]
        rwa [hoffset] at hcons
      · right
        refine ⟨c :: before, first, after, inside, rfl, ?_, hpos, hlt⟩
        rw [bytes]
        omega
    · by_cases hzero : offset = 0
      · exact Or.inl ⟨[], c :: cs, rfl, hzero.symm⟩
      · exact Or.inr ⟨[], c, cs, offset, rfl, (Nat.zero_add offset).symm, by omega, by omega⟩

end Text

namespace Document

variable {d : Document} {line column offset : Nat} {p : Position}

/-- No position is inside a character. -/
theorem positionOf?_of_inside {before after : List Char} {c : Char} {inside : Nat}
    (hchars : d.chars = before ++ c :: after) (hpos : 0 < inside) (hlt : inside < c.utf8Size) :
    d.positionOf? (Text.bytes before + inside) = none := by
  obtain ⟨lines, part, rfl, hlines, hpart⟩ := Text.exists_wholeLines before
  have hc : c ≠ '\n' := by
    rintro rfl
    have hsize : ('\n' : Char).utf8Size = 1 := rfl
    omega
  have hlater : ∀ start ∈ Text.lineStarts (Text.bytes (lines ++ part)) (c :: after),
      Text.bytes (lines ++ part) + inside < start := by
    intro start hstart
    rw [Text.lineStarts] at hstart
    simp only [if_neg hc] at hstart
    have hbounds := Text.lineStarts_bounds hstart
    omega
  have hmore : inside ≤ Text.bytes (c :: after) := by
    rw [Text.bytes]
    omega
  have hsplits := Text.splitsCharacter_inside 0 part (Text.line after) hpos hlt
  have hone : '\n' ∉ [c] := fun hmem => hc (List.mem_singleton.1 hmem).symm
  have hline := Text.line_append hone after
  rw [Nat.zero_add] at hsplits
  rw [List.singleton_append, List.singleton_append] at hline
  rw [positionOf?, lineColumn?_of_cut hchars hlines hpart hmore hlater, hline, hsplits]
  rfl

theorem isBoundary_of_positionOf? (h : d.positionOf? offset = some p) :
    Text.IsBoundary d.chars offset := by
  by_cases hle : offset ≤ d.length
  · rcases Text.isBoundary_or_inside hle with
      hboundary | ⟨before, c, after, inside, hchars, rfl, hpos, hlt⟩
    · exact hboundary
    · rw [positionOf?_of_inside hchars hpos hlt] at h
      cases h
  · rw [positionOf?, lineColumn?, if_pos (Nat.lt_of_not_le hle)] at h
    cases h

/-- Exactly the character boundaries have a position. -/
theorem positionOf?_ne_none_iff :
    d.positionOf? offset ≠ none ↔ Text.IsBoundary d.chars offset := by
  rw [Option.ne_none_iff_exists']
  exact ⟨fun ⟨_, h⟩ => isBoundary_of_positionOf? h, exists_positionOf?⟩

theorem exists_cut_of_isBoundary (h : Text.IsBoundary d.chars offset) :
    ∃ lines part after, d.chars = lines ++ part ++ after ∧ Text.WholeLines lines ∧
      '\n' ∉ part ∧ Text.bytes (lines ++ part) = offset := by
  obtain ⟨before, after, hchars, rfl⟩ := h
  obtain ⟨lines, part, rfl, hlines, hpart⟩ := Text.exists_wholeLines before
  exact ⟨lines, part, after, hchars.symm, hlines, hpart, rfl⟩

/-- A position counts line feeds, and the units since the last of them. -/
theorem positionOf?_eq_counts {before after : List Char} (h : d.chars = before ++ after) :
    d.positionOf? (Text.bytes before) =
      some ⟨before.count '\n', Text.units (Text.lastLine before)⟩ := by
  obtain ⟨lines, part, rfl, hlines, hpart⟩ := Text.exists_wholeLines before
  rw [positionOf?_of_cut h hlines hpart, Text.lastLine_append hlines hpart, List.count_append,
    List.count_eq_zero.2 hpart, Nat.add_zero]

/-- An offset comes back from its position, held at the end of the addressed part of its line. -/
theorem offsetOf?_of_positionOf? (hfits : d.length ≤ Text.maxCoordinate)
    (h : d.positionOf? offset = some p) : ∃ l : Text.LineOf d.chars p.line,
      l.start ≤ offset ∧ d.offsetOf? p.line p.column = some (min offset l.stop) := by
  have hboundary := isBoundary_of_positionOf? h
  have hle : offset ≤ Text.maxCoordinate := Nat.le_trans hboundary.le_bytes hfits
  obtain ⟨lines, part, after, hchars, hlines, hpart, rfl⟩ := exists_cut_of_isBoundary hboundary
  rw [positionOf?_of_cut hchars hlines hpart] at h
  obtain rfl := Option.some.inj h
  rw [Text.bytes_append] at hle ⊢
  have hoffset := offsetOf?_of_cut hchars hlines hpart (by omega)
  obtain ⟨l⟩ := nonempty_lineOf_of_offsetOf? hoffset
  have hsplit := Text.splitAtLine_of_wholeLines hlines (part ++ after)
  rw [← List.append_assoc, ← hchars] at hsplit
  obtain ⟨hbefore, hrest⟩ := l.eq_of_splitAtLine hsplit
  have hstart : l.start = Text.bytes lines := congrArg Text.bytes hbefore
  refine ⟨l, by omega, ?_⟩
  rw [hoffset, eq_of_offsetOf? l hoffset, Text.LineOf.offsetAt,
    Text.bytes_takeUnits_units hrest, l.stop_eq, hstart, Nat.add_min_add_left]

/-- A position with an offset is moved to the position of the offset, which stays there. -/
theorem positionOf?_of_offsetOf? (hfits : d.length ≤ Text.maxCoordinate)
    (h : d.offsetOf? line column = some offset) : ∃ p, d.positionOf? offset = some p ∧
      p.line = line ∧ p.column ≤ column ∧ d.offsetOf? p.line p.column = some offset := by
  obtain ⟨l⟩ := nonempty_lineOf_of_offsetOf? h
  obtain ⟨p, hposition, hback⟩ := exists_position hfits (isBoundary_of_offsetOf? h)
  rw [settle_of_offsetOf? h] at hback
  refine ⟨p, hposition, ?_⟩
  obtain ⟨left, -, hchars, hbytes⟩ := l.exists_cut column
  have hcounted := positionOf?_of_cut hchars l.wholeLines (l.notMem_takeUnits column)
  rw [hbytes, ← eq_of_offsetOf? l h, hposition] at hcounted
  obtain rfl := Option.some.inj hcounted
  exact ⟨l.count_before, Text.units_takeUnits_le column l.content, hback⟩

/--
How far offsets and positions are inverse, in a text whose offsets are
coordinates. The character boundaries are the offsets with a position; the
position counts the line feeds before the offset and the units since the last of
them, and it grows with the offset. Read back, it leads to the offset, or to the
end of the addressed part of the line if that comes first. A position that leads
to an offset and the position of this offset are on one line, the latter not to
the right, and both lead to the offset.
-/
theorem offsets_and_positions (hfits : d.length ≤ Text.maxCoordinate) :
    (∀ offset, d.positionOf? offset ≠ none ↔
      offset ≤ d.length ∧ Text.IsBoundary d.chars offset) ∧
    (∀ before after, d.chars = before ++ after → d.positionOf? (Text.bytes before) =
      some ⟨before.count '\n', Text.units (Text.lastLine before)⟩) ∧
    (∀ a b p q, a < b → d.positionOf? a = some p → d.positionOf? b = some q → p < q) ∧
    (∀ offset p, d.positionOf? offset = some p → ∃ l : Text.LineOf d.chars p.line,
      l.start ≤ offset ∧ d.offsetOf? p.line p.column = some (min offset l.stop)) ∧
    ∀ line column offset, d.offsetOf? line column = some offset →
      ∃ p, d.positionOf? offset = some p ∧ p.line = line ∧ p.column ≤ column ∧
        d.offsetOf? p.line p.column = some offset := by
  refine ⟨fun offset => ?_, fun before after h => positionOf?_eq_counts h, ?_,
    fun offset p h => offsetOf?_of_positionOf? hfits h,
    fun line column offset h => positionOf?_of_offsetOf? hfits h⟩
  · rw [positionOf?_ne_none_iff]
    exact ⟨fun h => ⟨h.le_bytes, h⟩, fun h => h.2⟩
  · intro a b p q hlt hp hq
    exact lt_of_positionOf? (isBoundary_of_positionOf? hp) (isBoundary_of_positionOf? hq) hlt hp hq

/-- The offset between the two returns of `widths` is read back as the end of the line's content,
and column 3, inside a character, is moved to column 2. -/
theorem offsets_and_positions_of_widths : widths.length ≤ Text.maxCoordinate ∧
    (∃ l : Text.LineOf widths.chars 0,
      l.start ≤ 11 ∧ widths.offsetOf? 0 6 = some (min 11 l.stop)) ∧
    ∃ p, widths.positionOf? 5 = some p ∧ p.line = 0 ∧ p.column ≤ 3 ∧
      widths.offsetOf? p.line p.column = some 5 := by
  have hfits : widths.length ≤ Text.maxCoordinate := by decide +kernel
  have hposition : widths.positionOf? 11 = some ⟨0, 6⟩ := by decide +kernel
  have hoffset : widths.offsetOf? 0 3 = some 5 := by decide +kernel
  obtain ⟨-, -, -, hread, hmoved⟩ := offsets_and_positions hfits
  exact ⟨hfits, hread 11 ⟨0, 6⟩ hposition, hmoved 0 3 5 hoffset⟩

end Document

end SelectionGrowth
