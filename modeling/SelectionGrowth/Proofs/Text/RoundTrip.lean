import SelectionGrowth.Proofs.Text.Returns

/-!
# Offsets to positions and back

A text is cut at the start of a line into whole lines and the rest. Both
conversions are computed from such a cut: a position counts the line feeds of
the whole lines and the UTF-16 units after them, and an offset is the width of
the whole lines and of a first part of the line.

## Main definitions

- `Text.WholeLines` — text that ends where a line starts
- `Document.settle` — the span that remains of a span once it has been written as a range

## Main statements

- `Document.positionOf?_of_cut`, `Document.offsetOf?_of_cut` — both conversions at a cut
- `Document.exists_position` — a boundary has a position, which leads back to where it settles
- `Document.settle_of_offsetOf?` — the offset of a position is settled
-/

namespace SelectionGrowth

namespace Text

/-- Text that ends where a line starts: it is empty or its last character is a line feed. -/
def WholeLines (cs : List Char) : Prop :=
  ∀ c, cs.getLast? = some c → c = '\n'

theorem wholeLines_nil : WholeLines [] :=
  fun _ h => nomatch h

theorem WholeLines.cons {cs : List Char} (h : WholeLines cs) (hne : cs ≠ []) (c : Char) :
    WholeLines (c :: cs) := by
  intro last hlast
  rw [List.getLast?_cons, List.getLast?_eq_some_getLast hne] at hlast
  exact h last (by rw [List.getLast?_eq_some_getLast hne]; exact hlast)

theorem WholeLines.tail {c : Char} {cs : List Char} (h : WholeLines (c :: cs)) : WholeLines cs := by
  intro last hlast
  refine h last ?_
  rw [List.getLast?_cons, hlast]
  rfl

theorem exists_wholeLines (cs : List Char) :
    ∃ lines rest, cs = lines ++ rest ∧ WholeLines lines ∧ '\n' ∉ rest := by
  induction cs with
  | nil => exact ⟨[], [], rfl, wholeLines_nil, List.not_mem_nil⟩
  | cons c cs ih =>
    obtain ⟨lines, rest, rfl, hlines, hrest⟩ := ih
    by_cases hnil : lines = []
    · subst hnil
      by_cases hc : c = '\n'
      · refine ⟨[c], rest, rfl, fun last hlast => ?_, hrest⟩
        rw [← hc]
        exact (Option.some.inj hlast).symm
      · refine ⟨[], c :: rest, rfl, wholeLines_nil, fun hmem => ?_⟩
        rcases List.mem_cons.1 hmem with heq | hmem
        · exact hc heq.symm
        · exact hrest hmem
    · exact ⟨c :: lines, rest, rfl, hlines.cons hnil c, hrest⟩

theorem trimReturns_wholeLines_append {lines : List Char} (h : WholeLines lines)
    (rest : List Char) : trimReturns (lines ++ rest) = lines ++ trimReturns rest := by
  have hlines : trimReturns lines = lines := by
    rcases List.eq_nil_or_concat lines with rfl | ⟨init, last, rfl⟩
    · rfl
    · rw [List.concat_eq_append] at h ⊢
      have hlast : last = '\n' := h last List.getLast?_concat
      exact trimReturns_concat_of_ne (by rw [hlast]; decide) init
  rw [trimReturns_append]
  split
  · next hrest => rw [hrest, hlines, List.append_nil]
  · rfl

-- ════════════════════════════════════════════════════════════════════════
-- Cuts at the start of a line
-- ════════════════════════════════════════════════════════════════════════

theorem splitAtLine_zero (cs : List Char) : splitAtLine 0 cs = some ([], cs) := by
  cases cs <;> rfl

theorem splitAtLine_of_wholeLines {lines : List Char} (h : WholeLines lines) (rest : List Char) :
    splitAtLine (lines.count '\n') (lines ++ rest) = some (lines, rest) := by
  induction lines with
  | nil => exact splitAtLine_zero rest
  | cons c lines ih =>
    have htail := ih h.tail
    by_cases hc : c = '\n'
    · subst hc
      rw [List.count_cons_self, List.cons_append, splitAtLine, if_pos rfl, htail]
      rfl
    · -- another character comes first, so a line feed is still to come
      have hne : lines ≠ [] := by
        rintro rfl
        exact hc (h c rfl)
      have hlast := h.tail _ (List.getLast?_eq_some_getLast hne)
      have hcount : 0 < lines.count '\n' :=
        List.count_pos_iff.2 (hlast ▸ List.getLast_mem hne)
      obtain ⟨n, hn⟩ : ∃ n, lines.count '\n' = n + 1 := ⟨lines.count '\n' - 1, by omega⟩
      rw [List.count_cons_of_ne hc, List.cons_append, hn, splitAtLine, if_neg hc, ← hn, htail]
      rfl

/-- A cut at the start of a line leaves before it whole lines, as many as asked for. -/
theorem wholeLines_of_splitAtLine {n : Nat} {cs lines rest : List Char}
    (h : splitAtLine n cs = some (lines, rest)) : WholeLines lines ∧ lines.count '\n' = n := by
  induction cs generalizing n lines with
  | nil =>
    cases n with
    | zero =>
      cases h
      exact ⟨wholeLines_nil, rfl⟩
    | succ n => exact nomatch h
  | cons c cs ih =>
    cases n with
    | zero =>
      cases h
      exact ⟨wholeLines_nil, rfl⟩
    | succ n =>
      obtain ⟨⟨before, after⟩, hcut, hpair⟩ := Option.map_eq_some_iff.1 h
      obtain ⟨rfl, rfl⟩ := Prod.mk.inj hpair
      obtain ⟨hlines, hcount⟩ := ih hcut
      by_cases hc : c = '\n'
      · rw [if_pos hc] at hcount
        refine ⟨?_, by rw [hc, List.count_cons_self, hcount]⟩
        by_cases hnil : before = []
        · intro last hlast
          rw [hnil] at hlast
          rw [← hc]
          exact (Option.some.inj hlast).symm
        · exact hlines.cons hnil c
      · rw [if_neg hc] at hcount
        refine ⟨hlines.cons ?_ c, by rw [List.count_cons_of_ne hc, hcount]⟩
        rintro rfl
        exact nomatch hcount

-- ════════════════════════════════════════════════════════════════════════
-- Columns
-- ════════════════════════════════════════════════════════════════════════

theorem unitSize_bounds (c : Char) : 0 < unitSize c ∧ unitSize c ≤ c.utf8Size := by
  have hpos := c.utf8Size_pos
  unfold unitSize
  split
  · exact ⟨Nat.one_pos, hpos⟩
  · next hwide =>
    refine ⟨Nat.two_pos, ?_⟩
    have hone : c.utf8Size ≠ 1 := by
      intro hone
      rw [Char.utf8Size_eq_one_iff] at hone
      exact hwide (UInt32.lt_of_le_of_lt hone (by decide))
    omega

theorem units_le_bytes (cs : List Char) : units cs ≤ bytes cs := by
  induction cs with
  | nil => exact Nat.le_refl 0
  | cons c cs ih =>
    have hunits := unitSize_bounds c
    rw [units, bytes]
    omega

theorem widen_of_le {passed column : Nat} (h : column ≤ passed) (cs : List Char) :
    widen passed cs column = some column := by
  induction cs generalizing passed with
  | nil => rfl
  | cons c cs ih =>
    rw [widen]
    split
    · exact ih (by omega)
    · rw [if_neg (by omega)]

/-- The units of a first part of a line widen to its bytes, if these can be counted. -/
theorem widen_append (passed : Nat) (part rest : List Char)
    (h : passed + bytes part ≤ maxCoordinate) :
    widen passed (part ++ rest) (passed + units part) = some (passed + bytes part) := by
  induction part generalizing passed with
  | nil => exact widen_of_le (Nat.le_refl passed) rest
  | cons c part ih =>
    have hunits := unitSize_bounds c
    rw [bytes] at h ⊢
    rw [List.cons_append, widen, units]
    split
    · next hone =>
      have hunit : unitSize c = 1 := by omega
      rw [hone] at h ⊢
      have hrest := ih (passed + 1) (by omega)
      rw [hunit]
      rw [← Nat.add_assoc, ← Nat.add_assoc]
      exact hrest
    · rw [if_pos (by omega)]
      have hmoved : passed + (unitSize c + units part) + (c.utf8Size - unitSize c) =
          passed + c.utf8Size + units part := by
        omega
      have hle : passed + c.utf8Size + units part ≤ maxCoordinate := by
        have hpart := units_le_bytes part
        omega
      simp only [hmoved, if_pos hle]
      rw [← Nat.add_assoc]
      exact ih (passed + c.utf8Size) (by omega)

theorem narrow_of_le {byteColumn passed : Nat} (h : byteColumn ≤ passed) (cs : List Char)
    (column : Nat) : narrow byteColumn passed cs column = some column := by
  induction cs generalizing passed with
  | nil => rfl
  | cons c cs ih =>
    have hpos := c.utf8Size_pos
    rw [narrow]
    split
    · exact ih (by omega)
    · rw [if_neg (by omega)]

/-- The bytes of a first part of a line narrow to its units, after a column for what is passed. -/
theorem narrow_append (passed column : Nat) (part rest : List Char) :
    narrow (passed + bytes part) passed (part ++ rest) (column + bytes part) =
      some (column + units part) := by
  induction part generalizing passed column with
  | nil => exact narrow_of_le (Nat.le_refl passed) rest column
  | cons c part ih =>
    have hunits := unitSize_bounds c
    rw [List.cons_append, narrow, bytes, units]
    split
    · next hone =>
      have hunit : unitSize c = 1 := by omega
      rw [hone, hunit, ← Nat.add_assoc, ← Nat.add_assoc, ← Nat.add_assoc]
      exact ih (passed + 1) (column + 1)
    · have hmoved : column + (c.utf8Size + bytes part) - (c.utf8Size - unitSize c) =
          column + unitSize c + bytes part := by
        omega
      rw [if_pos (by omega)]
      simp only [hmoved]
      rw [if_pos (by omega), ← Nat.add_assoc, ← Nat.add_assoc]
      exact ih (passed + c.utf8Size) (column + unitSize c)

theorem splitsCharacter_of_le {column passed : Nat} (h : column ≤ passed) (cs : List Char) :
    splitsCharacter column passed cs = false := by
  induction cs generalizing passed with
  | nil => rfl
  | cons c cs ih =>
    rw [splitsCharacter, ih (by omega), Bool.or_false, decide_eq_false_iff_not]
    omega

/-- No character is split at the end of a first part of a line. -/
theorem splitsCharacter_append (passed : Nat) (part rest : List Char) :
    splitsCharacter (passed + bytes part) passed (part ++ rest) = false := by
  induction part generalizing passed with
  | nil => exact splitsCharacter_of_le (Nat.le_refl passed) rest
  | cons c part ih =>
    rw [List.cons_append, splitsCharacter, bytes, ← Nat.add_assoc, ih, Bool.or_false,
      decide_eq_false_iff_not]
    omega

/-- A character is split at every byte inside it. -/
theorem splitsCharacter_inside (passed : Nat) (part rest : List Char) {c : Char} {inside : Nat}
    (hpos : 0 < inside) (hlt : inside < c.utf8Size) :
    splitsCharacter (passed + bytes part + inside) passed (part ++ c :: rest) = true := by
  induction part generalizing passed with
  | nil =>
    rw [List.nil_append, splitsCharacter, Bool.or_eq_true, decide_eq_true_iff, bytes]
    left
    omega
  | cons first part ih =>
    rw [List.cons_append, splitsCharacter, bytes, ← Nat.add_assoc, ih, Bool.or_true]

theorem notMem_line (rest : List Char) : '\n' ∉ line rest := by
  intro hmem
  have hne := List.all_eq_true.1 List.all_takeWhile '\n' hmem
  exact of_decide_eq_true hne rfl

theorem line_append {part : List Char} (h : '\n' ∉ part) (after : List Char) :
    line (part ++ after) = part ++ line after := by
  refine List.takeWhile_append_of_pos fun c hc => ?_
  exact decide_eq_true fun heq => h (heq ▸ hc)

/-- A cut of the addressed part of a line loses the returns that are not addressed. -/
theorem takeBytes_reach {part : List Char} (h : '\n' ∉ part) (after : List Char) :
    takeBytes (bytes part) (reach (part ++ after)) =
      if BeforeFeed after then trimReturns part else part := by
  unfold reach
  rw [line_append h]
  by_cases hfeed : '\n' ∈ after
  · rw [if_pos (List.mem_append_right part hfeed), trimReturns_append]
    by_cases hreturns : trimReturns (line after) = []
    · have hbefore : BeforeFeed after := ⟨hfeed, trimReturns_eq_nil_iff.1 hreturns⟩
      obtain ⟨dropped, hdropped⟩ := trimReturns_isPrefix part
      rw [if_pos hreturns, if_pos hbefore]
      exact takeBytes_of_le (bytes_trimReturns_le part)
    · have hnot : ¬ BeforeFeed after := fun hb => hreturns (trimReturns_eq_nil_iff.2 hb.2)
      rw [if_neg hreturns, if_neg hnot, takeBytes_append]
  · have hnot : ¬ BeforeFeed after := fun hb => hfeed hb.1
    have hnone : '\n' ∉ part ++ after := by
      rw [List.mem_append]
      exact fun hmem => hmem.elim h hfeed
    rw [if_neg hnone, if_neg hnot, takeBytes_append]

theorem trimReturns_of_reach {rest part left : List Char} (hparts : part ++ left = reach rest)
    (hfeed : '\n' ∈ rest) (hleft : ∀ c ∈ left, c = '\r') : trimReturns part = part := by
  unfold reach at hparts
  rw [if_pos hfeed] at hparts
  have hnil := eq_nil_of_trimReturns_eq_append hparts.symm hleft
  rw [hnil, List.append_nil] at hparts
  rw [hparts, trimReturns_trimReturns]

/-- After whole lines and a part of what columns address, an offset is settled. -/
theorem settle_of_reach {lines rest part left : List Char} (hlines : WholeLines lines)
    (hparts : part ++ left = reach rest) :
    settle (lines ++ rest) (bytes (lines ++ part)) = bytes (lines ++ part) := by
  obtain ⟨returns, hreturns⟩ := reach_isPrefix rest
  obtain ⟨after, hafter⟩ := line_isPrefix rest
  have hrest : rest = part ++ (left ++ (returns ++ after)) := by
    rw [← List.append_assoc left, ← List.append_assoc, ← List.append_assoc, hparts, hreturns,
      hafter]
  have hnone : '\n' ∉ left := by
    intro hmem
    have hline : '\n' ∈ line rest := by
      rw [← hreturns, ← hparts]
      exact List.mem_append_left _ (List.mem_append_right _ hmem)
    exact notMem_line rest hline
  have hcut : settle (lines ++ rest) (bytes (lines ++ part)) =
      if BeforeFeed (left ++ (returns ++ after)) then bytes (trimReturns (lines ++ part))
      else bytes (lines ++ part) := by
    rw [← settle_append, hrest, List.append_assoc]
  rw [hcut]
  split
  · next hbefore =>
    have hleft : ∀ c ∈ left, c = '\r' := by
      intro c hc
      refine hbefore.2 c ?_
      rw [line_append hnone]
      exact List.mem_append_left _ hc
    have hfeed : '\n' ∈ rest := by
      rw [hrest]
      exact List.mem_append_right _ hbefore.1
    rw [trimReturns_wholeLines_append hlines, trimReturns_of_reach hparts hfeed hleft]
  · rfl

-- ════════════════════════════════════════════════════════════════════════
-- Lines of offsets
-- ════════════════════════════════════════════════════════════════════════

theorem lineStarts_append (passed : Nat) (before after : List Char) :
    lineStarts passed (before ++ after) =
      lineStarts passed before ++ lineStarts (passed + bytes before) after := by
  induction before generalizing passed with
  | nil => rfl
  | cons c before ih =>
    rw [List.cons_append, lineStarts, lineStarts, bytes, ← Nat.add_assoc]
    simp only [ih]
    split <;> rfl

theorem length_lineStarts (passed : Nat) (cs : List Char) :
    (lineStarts passed cs).length = cs.count '\n' := by
  induction cs generalizing passed with
  | nil => rfl
  | cons c cs ih =>
    rw [lineStarts]
    split
    · next hc => rw [List.length_cons, ih, hc, List.count_cons_self]
    · next hc => rw [ih, List.count_cons_of_ne hc]

theorem lineStarts_bounds {passed start : Nat} {cs : List Char}
    (h : start ∈ lineStarts passed cs) : passed < start ∧ start ≤ passed + bytes cs := by
  induction cs generalizing passed with
  | nil => exact nomatch h
  | cons c cs ih =>
    have hpos := c.utf8Size_pos
    rw [bytes]
    have hlater : start ∈ lineStarts (passed + c.utf8Size) cs →
        passed < start ∧ start ≤ passed + (c.utf8Size + bytes cs) := fun hmem => by
      have hbounds := ih hmem
      omega
    rw [lineStarts] at h
    split at h
    · rcases List.mem_cons.1 h with rfl | hmem
      · omega
      · exact hlater hmem
    · exact hlater h

/-- An offset lies on the line of a cut if no line starts between the cut and the offset. -/
theorem lineNumber_append {before after : List Char} {offset : Nat} (hle : bytes before ≤ offset)
    (hlater : ∀ start ∈ lineStarts (bytes before) after, offset < start) :
    lineNumber (before ++ after) offset = before.count '\n' := by
  have hearlier : ∀ start ∈ lineStarts 0 before, decide (start ≤ offset) = true := by
    intro start hstart
    have hbounds := lineStarts_bounds hstart
    exact decide_eq_true (by omega)
  have hnone : (lineStarts (bytes before) after).takeWhile (· ≤ offset) = [] := by
    cases hstarts : lineStarts (bytes before) after with
    | nil => rfl
    | cons start starts =>
      have hstart := hlater start (hstarts ▸ List.mem_cons_self)
      exact List.takeWhile_cons_of_neg (by simpa using hstart)
  rw [lineNumber, lineStarts_append, Nat.zero_add, List.takeWhile_append_of_pos hearlier, hnone,
    List.append_nil, length_lineStarts]

end Text

namespace Document

/-- One character as it moves a position. -/
def stepOver (p : Position) (c : Char) : Position :=
  if c = '\n' then ⟨p.line + 1, 0⟩ else ⟨p.line, p.column + Text.unitSize c⟩

theorem foldl_stepOver_of_notMem {part : List Char} (h : '\n' ∉ part) (p : Position) :
    part.foldl stepOver p = ⟨p.line, p.column + Text.units part⟩ := by
  induction part generalizing p with
  | nil => rfl
  | cons c part ih =>
    have hc : c ≠ '\n' := fun heq => h (heq ▸ List.mem_cons_self)
    rw [List.foldl_cons, ih fun hmem => h (List.mem_cons_of_mem c hmem), stepOver, if_neg hc,
      Text.units, Nat.add_assoc]

theorem foldl_stepOver_line (cs : List Char) (p : Position) :
    (cs.foldl stepOver p).line = p.line + cs.count '\n' := by
  induction cs generalizing p with
  | nil => rfl
  | cons c cs ih =>
    rw [List.foldl_cons, ih, stepOver]
    by_cases hc : c = '\n'
    · rw [if_pos hc, hc, List.count_cons_self]
      exact Nat.add_right_comm p.line 1 _
    · rw [if_neg hc, List.count_cons_of_ne hc]

theorem foldl_stepOver_of_wholeLines {lines : List Char} (h : Text.WholeLines lines) :
    lines.foldl stepOver ⟨0, 0⟩ = ⟨lines.count '\n', 0⟩ := by
  have hline := foldl_stepOver_line lines ⟨0, 0⟩
  rcases List.eq_nil_or_concat lines with rfl | ⟨init, last, rfl⟩
  · rfl
  · rw [List.concat_eq_append] at h hline ⊢
    have hlast : last = '\n' := h last List.getLast?_concat
    have hcolumn : ((init ++ [last]).foldl stepOver ⟨0, 0⟩).column = 0 := by
      rw [List.foldl_append, List.foldl_cons, List.foldl_nil, stepOver, if_pos hlast]
    generalize (init ++ [last]).foldl stepOver ⟨0, 0⟩ = p at hline hcolumn
    obtain ⟨line, column⟩ := p
    rw [Nat.zero_add] at hline
    exact congr (congrArg Position.mk hline) hcolumn

variable {d : Document}

/-- The line of an offset, from a cut before it that has the same line. -/
theorem lineColumn?_of_cut {lines part after : List Char} {more : Nat}
    (hchars : d.chars = lines ++ part ++ after) (hlines : Text.WholeLines lines)
    (hpart : '\n' ∉ part) (hmore : more ≤ Text.bytes after)
    (hlater : ∀ start ∈ Text.lineStarts (Text.bytes (lines ++ part)) after,
      Text.bytes (lines ++ part) + more < start) :
    d.lineColumn? (Text.bytes (lines ++ part) + more) =
      if Text.splitsCharacter (Text.bytes part + more) 0 (part ++ Text.line after) then none
      else some (lines.count '\n', part ++ Text.line after, Text.bytes part + more) := by
  have hlength : ¬ d.length < Text.bytes (lines ++ part) + more := by
    rw [length, hchars, Text.bytes_append]
    omega
  have hnumber : Text.lineNumber d.chars (Text.bytes (lines ++ part) + more) =
      lines.count '\n' := by
    rw [hchars, Text.lineNumber_append (Nat.le_add_right _ more) hlater, List.count_append,
      List.count_eq_zero.2 hpart, Nat.add_zero]
  have hcolumn : Text.bytes (lines ++ part) + more - Text.bytes lines =
      Text.bytes part + more := by
    rw [Text.bytes_append]
    omega
  rw [lineColumn?, if_neg hlength]
  simp only [hnumber]
  rw [hchars, List.append_assoc, Text.splitAtLine_of_wholeLines hlines]
  simp only [hcolumn, Text.line_append hpart]

/-- The position at a cut: line feeds of the whole lines, units of the part after them. -/
theorem positionOf?_of_cut {lines part after : List Char}
    (hchars : d.chars = lines ++ part ++ after) (hlines : Text.WholeLines lines)
    (hpart : '\n' ∉ part) :
    d.positionOf? (Text.bytes (lines ++ part)) = some ⟨lines.count '\n', Text.units part⟩ := by
  have hline := lineColumn?_of_cut hchars hlines hpart (Nat.zero_le _)
    fun start hstart => (Text.lineStarts_bounds hstart).1
  have hsplits := Text.splitsCharacter_append 0 part (Text.line after)
  have hnarrow := Text.narrow_append 0 0 part (Text.line after)
  simp only [Nat.zero_add] at hsplits hnarrow
  rw [Nat.add_zero, Nat.add_zero, hsplits] at hline
  simp only [positionOf?, hline, Text.unitColumn?, hnarrow, if_neg Bool.false_ne_true,
    Option.map_some]

theorem offsetOf?_of_cut {lines part after : List Char} (hchars : d.chars = lines ++ part ++ after)
    (hlines : Text.WholeLines lines) (hpart : '\n' ∉ part)
    (hfits : Text.bytes part ≤ Text.maxCoordinate) :
    d.offsetOf? (lines.count '\n') (Text.units part) =
      some (Text.settle d.chars (Text.bytes (lines ++ part))) := by
  have hcolumn : Text.byteColumn? (Text.line (part ++ after)) (Text.units part) =
      some (Text.bytes part) := by
    rw [Text.line_append hpart]
    have hwiden := Text.widen_append 0 part (Text.line after) (by omega)
    rw [Nat.zero_add, Nat.zero_add] at hwiden
    exact hwiden
  rw [hchars, Text.settle_append, offsetOf?, hchars, List.append_assoc,
    Text.splitAtLine_of_wholeLines hlines]
  simp only [hcolumn, Option.map_some, Text.floorBoundary, Text.takeBytes_reach hpart]
  split
  · rw [Text.trimReturns_wholeLines_append hlines, Text.bytes_append]
  · rw [Text.bytes_append]

/-- A boundary has a position, and the position leads back to where the boundary settles. -/
theorem exists_position (hfits : d.length ≤ Text.maxCoordinate) {offset : Nat}
    (h : Text.IsBoundary d.chars offset) :
    ∃ p, d.positionOf? offset = some p ∧
      d.offsetOf? p.line p.column = some (Text.settle d.chars offset) := by
  have hle := h.le_bytes
  obtain ⟨before, after, hchars, rfl⟩ := h
  obtain ⟨lines, part, rfl, hlines, hpart⟩ := Text.exists_wholeLines before
  have hlength : Text.bytes part ≤ Text.maxCoordinate := by
    rw [Text.bytes_append] at hle
    have htotal : Text.bytes d.chars ≤ Text.maxCoordinate := hfits
    omega
  exact ⟨_, positionOf?_of_cut hchars.symm hlines hpart,
    offsetOf?_of_cut hchars.symm hlines hpart hlength⟩

/-- The offset of a position is settled: written as a position it comes back unchanged. -/
theorem settle_of_offsetOf? {line column offset : Nat}
    (h : d.offsetOf? line column = some offset) : Text.settle d.chars offset = offset := by
  unfold offsetOf? at h
  split at h
  · exact nomatch h
  · next lines rest hsplit =>
    obtain ⟨byteColumn, -, rfl⟩ := Option.map_eq_some_iff.1 h
    have hlines := (Text.wholeLines_of_splitAtLine hsplit).1
    have hparts := Text.takeBytes_append_dropBytes byteColumn (Text.reach rest)
    rw [← Text.append_of_splitAtLine hsplit, Text.floorBoundary, ← Text.bytes_append]
    exact Text.settle_of_reach hlines hparts

-- ════════════════════════════════════════════════════════════════════════
-- Spans and ranges
-- ════════════════════════════════════════════════════════════════════════

/-- Both ends of a span are character boundaries of a document. -/
def OnBoundaries (d : Document) (s : Span) : Prop :=
  Text.IsBoundary d.chars s.start ∧ Text.IsBoundary d.chars s.stop

instance (d : Document) (s : Span) : Decidable (d.OnBoundaries s) :=
  inferInstanceAs (Decidable (_ ∧ _))

/-- The span that remains of a span once it has been written as a range. -/
def settle (d : Document) (s : Span) : Span :=
  Span.ofBounds (Text.settle d.chars s.start) (Text.settle d.chars s.stop)

theorem settle_start_stop {s : Span} (h : d.OnBoundaries s) :
    (d.settle s).start = Text.settle d.chars s.start ∧
      (d.settle s).stop = Text.settle d.chars s.stop := by
  have hle := Text.settle_le_settle h.1 h.2 s.ordered
  unfold settle Span.ofBounds
  rw [dif_pos hle]
  exact ⟨rfl, rfl⟩

theorem settle_contains_settle {outer inner : Span} (houter : d.OnBoundaries outer)
    (hinner : d.OnBoundaries inner) (h : outer.Contains inner) :
    (d.settle outer).Contains (d.settle inner) := by
  unfold Span.Contains
  rw [(settle_start_stop houter).1, (settle_start_stop houter).2, (settle_start_stop hinner).1,
    (settle_start_stop hinner).2]
  exact ⟨Text.settle_le_settle houter.1 hinner.1 h.1, Text.settle_le_settle hinner.2 houter.2 h.2⟩

/-- A span on boundaries has a range, and the range leads back to where the span settles. -/
theorem exists_range (hfits : d.length ≤ Text.maxCoordinate) {s : Span} (h : d.OnBoundaries s) :
    ∃ r, d.range s = .ok r ∧ d.span r = .ok (d.settle s) := by
  obtain ⟨start, hstart, hstart'⟩ := exists_position hfits h.1
  obtain ⟨stop, hstop, hstop'⟩ := exists_position hfits h.2
  refine ⟨⟨start, stop⟩, ?_, ?_⟩
  · unfold range position
    rw [hstart, hstop]
    rfl
  · unfold span offset
    rw [hstart', hstop']
    rfl

/-- The span of a range lies on boundaries and is settled. -/
theorem settled_of_span {r : Range} {s : Span} (h : d.span r = .ok s) :
    d.OnBoundaries s ∧ d.settle s = s := by
  unfold span offset at h
  cases hstart : d.offsetOf? r.start.line r.start.column with
  | none =>
    rw [hstart] at h
    exact nomatch h
  | some start =>
    cases hstop : d.offsetOf? r.stop.line r.stop.column with
    | none =>
      rw [hstart, hstop] at h
      exact nomatch h
    | some stop =>
      rw [hstart, hstop] at h
      cases h
      obtain ⟨hfirst, hlast⟩ := Span.ofBounds_of_forall
        (P := fun offset => Text.IsBoundary d.chars offset ∧ Text.settle d.chars offset = offset)
        ⟨isBoundary_of_offsetOf? hstart, settle_of_offsetOf? hstart⟩
        ⟨isBoundary_of_offsetOf? hstop, settle_of_offsetOf? hstop⟩
      refine ⟨⟨hfirst.1, hlast.1⟩, ?_⟩
      unfold settle
      rw [hfirst.2, hlast.2]
      exact Span.ofBounds_start_stop _

end Document

end SelectionGrowth
